import Lapligence.Framework.SpanTrees
import Mathlib.Data.List.Nodup
import Mathlib.Algebra.Ring.Nat

/-!
# Views of nets

The aliases of nets (`llg_net_alias_*` in `nets.c`): a view shows bits of one or several nets, part by part.
A change of some bits of a net refreshes the views that read them, which are found through an index of the
spans of the net's entries (`llg_net_alias_span_t`).

A write to a signal is the change of its value here; what wakes up because of it is not modelled.
`visit_eq` says which entries a change visits, and `netAliases_show` that the views are right after every
history of changes.
-/

namespace Lapligence.Scheduler

open Function SpanTrees List

/-! ## The model -/

/-- A packed value, with the states of its bits. -/
@[ext] structure Packed (β : Type) where
  width : ℕ
  bit : ℕ → β

/-- `count` bits written at `offset`. -/
def Packed.put {β : Type} (v : Packed β) (offset count : ℕ) (source : ℕ → β) : Packed β :=
  { v with bit := fun i => if offset ≤ i ∧ i < offset + count then source (i - offset) else v.bit i }

/-- `llg_net_alias_part_t`. -/
structure AliasPart where
  net : Option ℕ
  signalBit : ℕ
  groupBit : ℕ
  bitCount : ℕ
deriving DecidableEq

/-- The bits of the view that a part shows. -/
def AliasPart.Covers (p : AliasPart) (i : ℕ) : Prop := p.signalBit ≤ i ∧ i < p.signalBit + p.bitCount

instance (p : AliasPart) (i : ℕ) : Decidable (p.Covers i) := inferInstanceAs (Decidable (_ ∧ _))

/-- `llg_net_alias_t`, without the signals it is shown in. -/
structure NetAlias (β : Type) where
  storage : Option (Packed β)
  width : ℕ
  parts : List AliasPart

/-- The nets, and the views in the order of `llg_net_alias_bind`.  A bit of a view denotes one bit of a
net. -/
structure AliasDesign (β : Type) where
  netWidth : ℕ → ℕ
  unknown : β
  bound : ℕ
  view : ℕ → NetAlias β
  disjoint : ∀ v, (view v).parts.Pairwise fun p q => ∀ i, ¬(p.Covers i ∧ q.Covers i)

/-- The signals a view is shown in: its own, and a cell of an array. -/
structure AliasCells (β : Type) where
  visible : Packed β
  publicationTarget : Option (Packed β)

/-- The values of the nets and the views. -/
structure AliasState (β : Type) where
  resolved : ℕ → ℕ → β
  cells : ℕ → AliasCells β

/-- `llg_net_alias_ref_t`: an entry of a net, for one part of a view or for all of it. -/
structure AliasRef where
  view : ℕ
  part : Option AliasPart

/-- `llg_net_alias_span_t`, with the entry. -/
structure AliasSpan where
  low : ℕ
  high : ℕ
  index : ℕ
  ref : AliasRef

/-- `LLG_NET_ALIAS_SPAN_MIN`. -/
def netAliasSpanMin : ℕ := 16

/-- A value written to both signals. -/
def AliasCells.write {β : Type} (c : AliasCells β) (f : Packed β → Packed β) : AliasCells β :=
  ⟨f c.visible, c.publicationTarget.map f⟩

namespace AliasDesign

variable {β : Type} (d : AliasDesign β) (resolved : ℕ → ℕ → β)

/-- What `llg_net_alias_refresh` starts from. -/
def start (v : ℕ) : Packed β := (d.view v).storage.getD ⟨(d.view v).width, fun _ => d.unknown⟩

/-- `llg_net_alias_part_fits`, for a value of a given width. -/
def Fits (width : ℕ) (p : AliasPart) : Prop :=
  ∃ n ∈ p.net, p.bitCount ≠ 0 ∧ p.signalBit + p.bitCount ≤ width ∧ p.groupBit + p.bitCount ≤ d.netWidth n

instance (width : ℕ) (p : AliasPart) : Decidable (d.Fits width p) :=
  inferInstanceAs (Decidable (∃ n ∈ p.net, _))

/-- One part is written from its net. -/
def putPart (value : Packed β) (p : AliasPart) : Packed β :=
  if d.Fits value.width p then
    value.put p.signalBit p.bitCount fun k => resolved (p.net.getD 0) (p.groupBit + k)
  else value

/-- The value that `llg_net_alias_refresh` writes. -/
def refresh (v : ℕ) : Packed β := (d.view v).parts.foldl (d.putPart resolved) (d.start v)

/-- What `llg_net_alias_refresh_all` does with an entry.  The parts of one view that stand together are written
at once by the source, with the same result. -/
def refreshPart (ref : AliasRef) (c : AliasCells β) : AliasCells β :=
  match ref.part with
  | none => c.write fun _ => d.refresh resolved ref.view
  | some p =>
    if c.visible.width ≠ (d.start ref.view).width then c.write fun _ => d.refresh resolved ref.view
    else c.write fun _ => d.putPart resolved c.visible p

/-- `llg_net_alias_refresh_entry`. -/
def refreshEntry [DecidableEq β] (net low high : ℕ) (ref : AliasRef) (c : AliasCells β) : AliasCells β :=
  match ref.part with
  | none => c.write fun _ => d.refresh resolved ref.view
  | some p =>
    if c.visible.width ≠ (d.start ref.view).width ∨ ∃ t ∈ c.publicationTarget, t.width ≠ c.visible.width then
      c.write fun _ => d.refresh resolved ref.view
    else
      let first := max p.groupBit low
      let last := min (p.groupBit + p.bitCount - 1) high
      let offset := p.signalBit + (first - p.groupBit)
      let count := last - first + 1
      let same := fun x : Packed β => ∀ k < count, resolved net (first + k) = x.bit (offset + k)
      if first > last ∨ last ≥ d.netWidth net ∨ offset + count > c.visible.width then c
      else if same c.visible ∧ ∀ t ∈ c.publicationTarget, same t then c
      else c.write fun x => x.put offset count fun k => resolved net (first + k)

/-- The parts of a view fit and cover it. -/
def Exact (v : ℕ) : Prop :=
  (∀ p ∈ (d.view v).parts, d.Fits (d.start v).width p) ∧
    ((d.view v).parts.map AliasPart.bitCount).sum = (d.start v).width

instance (v : ℕ) : Decidable (d.Exact v) := inferInstanceAs (Decidable (_ ∧ _))

/-- The entries of a net after `llg_net_alias_bind` of every view. -/
def aliases (net : ℕ) : List AliasRef :=
  (List.range d.bound).flatMap fun v =>
    let parts := (d.view v).parts.filter (·.net = some net)
    if d.Exact v then parts.map fun p => ⟨v, some p⟩ else if parts = [] then [] else [⟨v, none⟩]

/-- The span of an entry. -/
def span (net index : ℕ) (ref : AliasRef) : AliasSpan :=
  let parts := (ref.part.elim (d.view ref.view).parts ([·])).filter fun p => p.net = some net ∧ p.bitCount ≠ 0
  let hull := parts.foldl (fun hull p => (min hull.1 p.groupBit, max hull.2 (p.groupBit + p.bitCount - 1)))
    (d.netWidth net - 1, 0)
  if hull.1 > hull.2 then ⟨0, d.netWidth net - 1, index, ref⟩ else ⟨hull.1, hull.2, index, ref⟩

/-- `llg_net_alias_spans_build`: the spans, sorted by `llg_net_alias_span_order`. -/
def spans (net : ℕ) : List AliasSpan :=
  ((d.aliases net).zipIdx.map fun e => d.span net e.2 e.1).mergeSort fun a b =>
    a.low < b.low ∨ a.low = b.low ∧ a.index ≤ b.index

/-- `llg_net_alias_spans_visit`: the spans in the order they are visited. -/
def visit (net low high : ℕ) : List AliasSpan :=
  (Tree.build AliasSpan.high (d.spans net).length (d.spans net)).visit AliasSpan.low AliasSpan.high low high

/-- `llg_net_alias_refresh_range`: the entries that are refreshed, and how. -/
def refreshRange [DecidableEq β] (net low high : ℕ) : List (AliasRef × (AliasCells β → AliasCells β)) :=
  if (d.aliases net).length < netAliasSpanMin then
    (d.aliases net).map fun ref => (ref, d.refreshPart resolved ref)
  else (d.visit net low high).map fun s => (s.ref, d.refreshEntry resolved net low high s.ref)

end AliasDesign

/-- A change of the bits of a net from `low` to `high`. -/
structure NetChange (β : Type) where
  net : ℕ
  low : ℕ
  high : ℕ
  bits : ℕ → β

namespace AliasDesign

variable {β : Type} [DecidableEq β] (d : AliasDesign β)

/-- `llg_net_publish_range`, and `llg_net_publish_ranges` on the range around both; a range that does not fit
ends the simulation. -/
def publish (s : AliasState β) (c : NetChange β) : AliasState β :=
  if c.low ≤ c.high ∧ c.high < d.netWidth c.net ∧
      ¬∀ i < c.high + 1, c.low ≤ i → s.resolved c.net i = c.bits i then
    let resolved := update s.resolved c.net fun i =>
      if c.low ≤ i ∧ i ≤ c.high then c.bits i else s.resolved c.net i
    ⟨resolved, (d.refreshRange resolved c.net c.low c.high).foldl
      (fun cells a => update cells a.1.view (a.2 (cells a.1.view))) s.cells⟩
  else s

/-- The views after `llg_net_alias_bind`. -/
def bind (resolved : ℕ → ℕ → β) (cells : ℕ → AliasCells β) : AliasState β :=
  ⟨resolved, fun v => (cells v).write fun _ => d.refresh resolved v⟩

/-- Every signal shows what a refresh of its view would write. -/
def InSync (s : AliasState β) : Prop :=
  ∀ v < d.bound, (s.cells v).visible = d.refresh s.resolved v ∧
    ∀ t ∈ (s.cells v).publicationTarget, t = d.refresh s.resolved v

end AliasDesign

/-! ## Bits of a view -/

/-- What holds of both signals. -/
def AliasCells.All {β : Type} (c : AliasCells β) (P : Packed β → Prop) : Prop :=
  P c.visible ∧ ∀ t ∈ c.publicationTarget, P t

lemma AliasCells.All.write {β : Type} {c : AliasCells β} {P Q : Packed β → Prop} (h : c.All P)
    {f : Packed β → Packed β} (hf : ∀ x, P x → Q (f x)) : (c.write f).All Q := by
  refine ⟨hf _ h.1, fun t ht => ?_⟩
  obtain ⟨x, hx, rfl⟩ := Option.map_eq_some_iff.1 ht
  exact hf x (h.2 x hx)

namespace AliasDesign

variable {β : Type} {d : AliasDesign β} {resolved : ℕ → ℕ → β} {v i : ℕ}
variable {p : AliasPart} {net : ℕ}

@[simp] lemma width_putPart (x : Packed β) (p : AliasPart) : (d.putPart resolved x p).width = x.width := by
  rw [putPart]
  split_ifs <;> rfl

@[simp] lemma width_foldl_putPart (parts : List AliasPart) (x : Packed β) :
    (parts.foldl (d.putPart resolved) x).width = x.width := by
  induction parts generalizing x with
  | nil => rfl
  | cons p parts ih => rw [foldl_cons, ih, width_putPart]

lemma bit_putPart {x : Packed β} (hfits : d.Fits x.width p) :
    (d.putPart resolved x p).bit i =
      if p.Covers i then resolved (p.net.getD 0) (p.groupBit + (i - p.signalBit)) else x.bit i := by
  rw [putPart, if_pos hfits]
  rfl

/-- A bit of a view is the bit of the net that it denotes. -/
lemma refresh_bit (hp : p ∈ (d.view v).parts) (hfits : d.Fits (d.start v).width p)
    (hi : p.Covers i) : (d.refresh resolved v).bit i =
      resolved (p.net.getD 0) (p.groupBit + (i - p.signalBit)) := by
  have hdisjoint := d.disjoint v
  rw [refresh]
  obtain ⟨before, after, hparts⟩ := append_of_mem hp
  rw [hparts] at hdisjoint ⊢
  have hafter := (pairwise_cons.1 (pairwise_append.1 hdisjoint).2.1).1
  -- no later part writes the bit
  have hlater : ∀ (parts : List AliasPart) (x : Packed β), (∀ q ∈ parts, ¬q.Covers i) →
      (parts.foldl (d.putPart resolved) x).bit i = x.bit i := by
    intro parts
    induction parts with
    | nil => exact fun _ _ => rfl
    | cons q parts ih =>
      intro x hq
      rw [foldl_cons, ih _ fun r hr => hq r (mem_cons_of_mem q hr), putPart]
      split_ifs
      · exact if_neg (hq q mem_cons_self)
      · rfl
  rw [foldl_append, foldl_cons, hlater _ _ fun q hq hqi => hafter q hq i ⟨hi, hqi⟩,
    bit_putPart (by rwa [width_foldl_putPart]), if_pos hi]

/-- A bit of a view depends on the bit that it denotes. -/
lemma refresh_bit_congr {resolved' : ℕ → ℕ → β} (h : ∀ p ∈ (d.view v).parts, d.Fits (d.start v).width p →
      p.Covers i → resolved (p.net.getD 0) (p.groupBit + (i - p.signalBit)) =
        resolved' (p.net.getD 0) (p.groupBit + (i - p.signalBit))) :
    (d.refresh resolved v).bit i = (d.refresh resolved' v).bit i := by
  have hfold : ∀ (parts : List AliasPart) (x y : Packed β), parts ⊆ (d.view v).parts →
      x.width = (d.start v).width → y.width = (d.start v).width → x.bit i = y.bit i →
      (parts.foldl (d.putPart resolved) x).bit i = (parts.foldl (d.putPart resolved') y).bit i := by
    intro parts
    induction parts with
    | nil => exact fun _ _ _ _ _ heq => heq
    | cons p parts ih =>
      intro x y hsub hx hy heq
      refine ih _ _ (fun q hq => hsub (mem_cons_of_mem p hq)) (by simp [hx]) (by simp [hy]) ?_
      by_cases hfits : d.Fits (d.start v).width p
      · rw [bit_putPart (hx ▸ hfits), bit_putPart (hy ▸ hfits)]
        split_ifs with hi
        · exact h p (hsub mem_cons_self) hfits hi
        · exact heq
      · rw [putPart, putPart, if_neg (hx ▸ hfits), if_neg (hy ▸ hfits), heq]
  exact hfold _ _ _ (List.Subset.refl _) rfl rfl rfl

/-! ## What a refresh repairs -/

/-- The bits of an entry that read a range of a net. -/
def Reads (low high : ℕ) (ref : AliasRef) (i : ℕ) : Prop :=
  ∀ p ∈ ref.part, p.Covers i ∧ low ≤ p.groupBit + (i - p.signalBit) ∧ p.groupBit + (i - p.signalBit) ≤ high

/-- An entry of a net: one of the parts that read it, or none. -/
def Entry (d : AliasDesign β) (net : ℕ) (ref : AliasRef) : Prop :=
  ∀ p ∈ ref.part, p ∈ (d.view ref.view).parts ∧ d.Fits (d.start ref.view).width p ∧ p.net = some net

def Wide (d : AliasDesign β) (v : ℕ) (x : Packed β) : Prop := x.width = (d.start v).width

def Right (d : AliasDesign β) (resolved : ℕ → ℕ → β) (v i : ℕ) (x : Packed β) : Prop :=
  x.bit i = (d.refresh resolved v).bit i

/-- A change of the signals of a view keeps the bits that are right and rights those of `K`. -/
def Repairs (d : AliasDesign β) (resolved : ℕ → ℕ → β) (v : ℕ) (f : AliasCells β → AliasCells β)
    (K : ℕ → Prop) : Prop :=
  ∀ c : AliasCells β, c.All (d.Wide v) →
    (f c).All (d.Wide v) ∧ ∀ i, c.All (d.Right resolved v i) ∨ K i → (f c).All (d.Right resolved v i)

lemma repairs_refresh (K : ℕ → Prop) :
    d.Repairs resolved v (fun c => c.write fun _ => d.refresh resolved v) K := fun _ hwidth =>
  ⟨hwidth.write fun _ _ => width_foldl_putPart _ _, fun _ _ => hwidth.write fun _ _ => rfl⟩

section Entries

variable {net low high : ℕ} {ref : AliasRef} (hentry : d.Entry net ref)
include hentry

lemma repairs_refreshPart :
    d.Repairs resolved ref.view (d.refreshPart resolved ref) (Reads low high ref) := by
  obtain ⟨v, part⟩ := ref
  cases part with
  | none => exact repairs_refresh _
  | some p =>
    obtain ⟨hp, hfits, -⟩ := hentry p rfl
    intro c hwidth
    have hw : c.visible.width = (d.start v).width := hwidth.1
    dsimp only [refreshPart]
    rw [if_neg (not_not.2 hw)]
    refine ⟨hwidth.write fun _ _ => (width_putPart _ _).trans hw, fun i hi => hwidth.write fun _ _ => ?_⟩
    rw [Right, bit_putPart (hw ▸ hfits)]
    split_ifs with hcovers
    · exact (refresh_bit hp hfits hcovers).symm
    · exact (hi.resolve_right fun hreads => hcovers (hreads p rfl).1).1

lemma repairs_refreshEntry [DecidableEq β] :
    d.Repairs resolved ref.view (d.refreshEntry resolved net low high ref) (Reads low high ref) := by
  obtain ⟨v, part⟩ := ref
  cases part with
  | none => exact repairs_refresh _
  | some p =>
    obtain ⟨hp, hfits, hnet⟩ := hentry p rfl
    have ⟨n, hn, hcount, hsignal, hgroup⟩ := hfits
    obtain rfl : net = n := Option.some.inj (hnet.symm.trans hn)
    intro c hwidth
    have hw : c.visible.width = (d.start v).width := hwidth.1
    dsimp only [refreshEntry] at hsignal ⊢
    generalize hfirst : max p.groupBit low = first
    generalize hlast : min (p.groupBit + p.bitCount - 1) high = last
    generalize hoffset : p.signalBit + (first - p.groupBit) = offset
    generalize hsize : last - first + 1 = count
    have hreads : ∀ i, Reads low high ⟨v, some p⟩ i →
        first ≤ last ∧ last < d.netWidth net ∧ offset + count ≤ c.visible.width ∧
          offset ≤ i ∧ i < offset + count := by
      intro i hi
      obtain ⟨⟨hlow, hhigh⟩, hi⟩ := hi p rfl
      omega
    split_ifs with hfull hout hsame
    · exact repairs_refresh _ c hwidth
    · exact ⟨hwidth, fun i hi => hi.resolve_right fun hall => by have := hreads i hall; omega⟩
    all_goals
      have hbits : ∀ i, offset ≤ i ∧ i < offset + count →
          (d.refresh resolved v).bit i = resolved net (first + (i - offset)) := by
        intro i hi
        rw [refresh_bit hp hfits ⟨by omega, by omega⟩, hnet, Option.getD_some]
        congr 1
        omega
    · -- the bits are there already
      refine ⟨hwidth, fun i hi => hi.elim id fun hall => ?_⟩
      have hi := (hreads i hall).2.2.2
      have hx : ∀ x : Packed β, (∀ k < count, resolved net (first + k) = x.bit (offset + k)) →
          x.bit i = (d.refresh resolved v).bit i := by
        intro x hx
        rw [hbits i hi, hx _ (by omega), Nat.add_sub_cancel' hi.1]
      exact ⟨hx _ hsame.1, fun t ht => hx t (hsame.2 t ht)⟩
    · refine ⟨hwidth.write fun x hx => hx, fun i hi => ?_⟩
      by_cases hmem : offset ≤ i ∧ i < offset + count
      · exact hwidth.write fun x _ => (if_pos hmem).trans (hbits i hmem).symm
      · exact (hi.resolve_right fun hall => hmem (hreads i hall).2.2.2).write fun x hx => (if_neg hmem).trans hx

end Entries

/-- Refreshes one after the other. -/
lemma foldl_repairs {acts : List (AliasRef × (AliasCells β → AliasCells β))} {K : AliasRef → ℕ → Prop}
    (hacts : ∀ a ∈ acts, d.Repairs resolved a.1.view a.2 (K a.1)) {cells : ℕ → AliasCells β}
    (hwidth : (cells v).All (d.Wide v)) :
    let after := acts.foldl (fun cells a => update cells a.1.view (a.2 (cells a.1.view))) cells v
    after.All (d.Wide v) ∧ ∀ i, (cells v).All (d.Right resolved v i) ∨ (∃ a ∈ acts, a.1.view = v ∧ K a.1 i) →
      after.All (d.Right resolved v i) := by
  induction acts generalizing cells with
  | nil => exact ⟨hwidth, fun i hi => hi.resolve_right (by simp)⟩
  | cons a acts ih =>
    have hrest := fun b hb => hacts b (mem_cons_of_mem a hb)
    by_cases hv : a.1.view = v
    · subst hv
      obtain ⟨hwide, hright⟩ := hacts a mem_cons_self _ hwidth
      obtain ⟨hwide', hright'⟩ := @ih hrest (update cells a.1.view (a.2 (cells a.1.view)))
        (by rwa [update_self])
      refine ⟨hwide', fun i hi => hright' i ?_⟩
      rw [update_self]
      rcases hi with hi | ⟨b, hb, hview, hK⟩
      · exact .inl (hright i (.inl hi))
      · rcases mem_cons.1 hb with rfl | hb
        exacts [.inl (hright i (.inr hK)), .inr ⟨b, hb, hview, hK⟩]
    · obtain ⟨hwide', hright'⟩ := @ih hrest (update cells a.1.view (a.2 (cells a.1.view)))
        (by rwa [update_of_ne (Ne.symm hv)])
      refine ⟨hwide', fun i hi => hright' i ?_⟩
      rw [update_of_ne (Ne.symm hv)]
      refine hi.imp_right ?_
      rintro ⟨b, hb, hview, hK⟩
      rcases mem_cons.1 hb with rfl | hb
      exacts [absurd hview hv, ⟨b, hb, hview, hK⟩]

/-! ## The index -/

lemma spans_sorted (net : ℕ) : (d.spans net).Pairwise fun a b => a.low ≤ b.low := by
  refine (pairwise_mergeSort ?_ ?_ _).imp fun {a b} h => ?_
  · simp only [decide_eq_true_eq]
    omega
  · simp only [Bool.or_eq_true, decide_eq_true_eq]
    omega
  · rw [decide_eq_true_eq] at h
    omega

lemma visit_eq (net low high : ℕ) :
    d.visit net low high = (d.spans net).filter fun s => s.low ≤ high ∧ low ≤ s.high :=
  Tree.visit_build (spans_sorted net)

lemma mem_spans {s : AliasSpan} : s ∈ d.spans net ↔
    ∃ ref index, (d.aliases net)[index]? = some ref ∧ d.span net index ref = s := by
  rw [spans, (mergeSort_perm _ _).mem_iff]
  simp [mem_zipIdx_iff_getElem?]

lemma span_spec (net index : ℕ) (ref : AliasRef) :
    (d.span net index ref).index = index ∧ (d.span net index ref).ref = ref := by
  simp only [span]
  split_ifs <;> exact ⟨rfl, rfl⟩

/-- The span of an entry contains the bits of the net that its parts read. -/
lemma span_contains {index j : ℕ} {ref : AliasRef}
    (hp : p ∈ ref.part.elim (d.view ref.view).parts ([·])) (hnet : p.net = some net)
    (hj : p.groupBit ≤ j ∧ j < p.groupBit + p.bitCount) :
    (d.span net index ref).low ≤ j ∧ j ≤ (d.span net index ref).high := by
  have hhull : ∀ (ps : List AliasPart) (h : ℕ × ℕ), let hull := ps.foldl (fun hull p =>
      (min hull.1 p.groupBit, max hull.2 (p.groupBit + p.bitCount - 1))) h
      hull.1 ≤ h.1 ∧ h.2 ≤ hull.2 ∧ (p ∈ ps → hull.1 ≤ j ∧ j ≤ hull.2) := by
    intro ps
    induction ps with
    | nil => simp
    | cons q ps ih =>
      intro h
      obtain ⟨hlow, hhigh, hmem⟩ := ih (min h.1 q.groupBit, max h.2 (q.groupBit + q.bitCount - 1))
      dsimp only at hlow hhigh
      refine ⟨le_trans hlow (Nat.min_le_left _ _), le_trans (Nat.le_max_left _ _) hhigh, fun hp => ?_⟩
      rcases mem_cons.1 hp with rfl | hp
      · exact ⟨le_trans hlow (by omega), le_trans (by omega) hhigh⟩
      · exact hmem hp
  have hmem : p ∈ (ref.part.elim (d.view ref.view).parts ([·])).filter
      fun p => p.net = some net ∧ p.bitCount ≠ 0 :=
    mem_filter.2 ⟨hp, decide_eq_true ⟨hnet, by omega⟩⟩
  obtain ⟨hlow, hhigh⟩ := (hhull _ (d.netWidth net - 1, 0)).2.2 hmem
  simp only [span]
  rw [if_neg (Nat.not_lt.2 (le_trans hlow hhigh))]
  exact ⟨hlow, hhigh⟩

/-! ## Histories of changes -/

lemma entry_of_mem {ref : AliasRef} (h : ref ∈ d.aliases net) : d.Entry net ref := by
  obtain ⟨v, -, hv⟩ := mem_flatMap.1 h
  dsimp only at hv
  split_ifs at hv with hexact hnone
  · obtain ⟨p, hp, rfl⟩ := mem_map.1 hv
    obtain ⟨hp, hnet⟩ := mem_filter.1 hp
    rintro q ⟨⟩
    exact ⟨hp, hexact.1 p hp, of_decide_eq_true hnet⟩
  · cases hv
  · obtain rfl := mem_singleton.1 hv
    exact fun p hp => by cases hp

/-- A part that reads a net has an entry there, alone or with the whole view. -/
lemma exists_entry (hv : v < d.bound) (hp : p ∈ (d.view v).parts)
    (hnet : p.net = some net) : ∃ ref ∈ d.aliases net, ref.view = v ∧ (ref.part = some p ∨ ref.part = none) := by
  have hmem : p ∈ (d.view v).parts.filter (·.net = some net) :=
    mem_filter.2 ⟨hp, decide_eq_true hnet⟩
  by_cases hexact : d.Exact v
  · refine ⟨⟨v, some p⟩, mem_flatMap.2 ⟨v, mem_range.2 hv, ?_⟩, rfl, .inl rfl⟩
    rw [if_pos hexact]
    exact mem_map_of_mem hmem
  · refine ⟨⟨v, none⟩, mem_flatMap.2 ⟨v, mem_range.2 hv, ?_⟩, rfl, .inr rfl⟩
    rw [if_neg hexact, if_neg (ne_nil_of_mem hmem)]
    exact mem_singleton_self _

variable [DecidableEq β]

/-- The bits of a view that read the range are among those of the refreshed entries. -/
lemma exists_refresh {low high : ℕ} (hv : v < d.bound) (hp : p ∈ (d.view v).parts)
    (hnet : p.net = some net) (hi : p.Covers i) (hlow : low ≤ p.groupBit + (i - p.signalBit))
    (hhigh : p.groupBit + (i - p.signalBit) ≤ high) :
    ∃ a ∈ d.refreshRange resolved net low high, a.1.view = v ∧ Reads low high a.1 i := by
  obtain ⟨ref, href, rfl, hpart⟩ := exists_entry hv hp hnet
  have hreads : Reads low high ref i := fun q hq => by
    rcases hpart with hpart | hpart <;> rw [hpart] at hq <;> cases hq
    exact ⟨hi, hlow, hhigh⟩
  have hmem : p ∈ ref.part.elim (d.view ref.view).parts ([·]) := by
    rcases hpart with hpart | hpart <;> rw [hpart]
    exacts [mem_singleton_self p, hp]
  rw [refreshRange]
  split_ifs
  · exact ⟨_, mem_map_of_mem href, rfl, hreads⟩
  · obtain ⟨index, hindex⟩ := mem_iff_getElem?.1 href
    obtain ⟨hfirst, hlast⟩ := @span_contains _ _ p net index (p.groupBit + (i - p.signalBit)) ref hmem hnet
      (by have := hi.1; have := hi.2; omega)
    have hvisit : d.span net index ref ∈ d.visit net low high := by
      rw [visit_eq, mem_filter, mem_spans, decide_eq_true_eq]
      exact ⟨⟨ref, index, hindex, rfl⟩, le_trans hfirst hhigh, le_trans hlow hlast⟩
    refine ⟨_, mem_map_of_mem hvisit, ?_⟩
    rw [(span_spec _ _ _).2]
    exact ⟨rfl, hreads⟩

/-- A change of a net keeps all views right. -/
lemma publish_inSync {s : AliasState β} (h : d.InSync s) (c : NetChange β) : d.InSync (d.publish s c) := by
  rw [publish]
  split_ifs with hchange
  swap; · exact h
  intro v hv
  dsimp only
  generalize hresolved : update s.resolved c.net _ = resolved
  have hall : (s.cells v).All (· = d.refresh s.resolved v) := h v hv
  have hacts : ∀ a ∈ d.refreshRange resolved c.net c.low c.high,
      d.Repairs resolved a.1.view a.2 (Reads c.low c.high a.1) := by
    intro a ha
    rw [refreshRange] at ha
    split_ifs at ha
    · obtain ⟨ref, href, rfl⟩ := mem_map.1 ha
      exact repairs_refreshPart (entry_of_mem href)
    · obtain ⟨x, hx, rfl⟩ := mem_map.1 ha
      rw [visit_eq, mem_filter, mem_spans] at hx
      obtain ⟨⟨ref, index, href, rfl⟩, -⟩ := hx
      rw [(span_spec _ _ _).2]
      exact repairs_refreshEntry (entry_of_mem (mem_of_getElem? href))
  obtain ⟨hwide, hright⟩ := @foldl_repairs _ _ _ v _ _ hacts s.cells
    ⟨hall.1 ▸ width_foldl_putPart _ _, fun t ht => hall.2 t ht ▸ width_foldl_putPart _ _⟩
  have hbits := fun i => hright i (by
    by_cases hread : ∃ p ∈ (d.view v).parts, p.net = some c.net ∧ p.Covers i ∧
        c.low ≤ p.groupBit + (i - p.signalBit) ∧ p.groupBit + (i - p.signalBit) ≤ c.high
    · obtain ⟨p, hp, hnet, hi, hlow, hhigh⟩ := hread
      exact .inr (exists_refresh hv hp hnet hi hlow hhigh)
    · -- the net bit that is denoted has not changed
      have hsame : (d.refresh s.resolved v).bit i = (d.refresh resolved v).bit i := by
        refine refresh_bit_congr fun p hp hfits hi => ?_
        obtain ⟨n, hn, -⟩ := hfits
        rw [← hresolved, hn, Option.getD_some]
        by_cases hnet : n = c.net
        · rw [hnet, update_self, if_neg fun hrange => hread ⟨p, hp, hnet ▸ hn, hi, hrange⟩]
        · rw [update_of_ne hnet]
      exact .inl ⟨hall.1 ▸ hsame, fun t ht => hall.2 t ht ▸ hsame⟩)
  exact ⟨Packed.ext (hwide.1.trans (width_foldl_putPart _ _).symm) (funext fun i => (hbits i).1),
    fun t ht => Packed.ext ((hwide.2 t ht).trans (width_foldl_putPart _ _).symm)
      (funext fun i => (hbits i).2 t ht)⟩

/-- A change of a range of a net that fits leaves its bits there and nothing else changed. -/
lemma publish_resolved (s : AliasState β) {c : NetChange β} (hrange : c.low ≤ c.high)
    (hfits : c.high < d.netWidth c.net) (net i : ℕ) : (d.publish s c).resolved net i =
      if net = c.net ∧ c.low ≤ i ∧ i ≤ c.high then c.bits i else s.resolved net i := by
  rw [publish]
  by_cases hsame : ∀ i < c.high + 1, c.low ≤ i → s.resolved c.net i = c.bits i
  · rw [if_neg fun h => h.2.2 hsame]
    split_ifs with hi
    · obtain ⟨rfl, hlow, hhigh⟩ := hi
      exact hsame i (Nat.lt_succ_of_le hhigh) hlow
    · rfl
  · rw [if_pos ⟨hrange, hfits, hsame⟩]
    dsimp only
    by_cases hnet : net = c.net
    · rw [hnet, update_self]
      simp only [true_and]
    · rw [update_of_ne hnet, if_neg fun h => hnet h.1]

/-- The visit of a change finds the entries whose spans overlap its range and no others, each once, in the
order of their starts.  After every history of changes the signals show what a refresh of their views would
write, and so each bit of a part the bit of the net that it denotes.  A further change that fits its net
leaves its bits in the range, and one that does not changes nothing. -/
theorem netAliases_show (d : AliasDesign β) (resolved : ℕ → ℕ → β) (cells : ℕ → AliasCells β)
    (changes : List (NetChange β)) :
    (∀ net low high, (d.visit net low high).Pairwise (fun a b => a.low ≤ b.low) ∧
      ((d.visit net low high).map AliasSpan.index).Nodup ∧
      (∀ s ∈ d.visit net low high,
        ∃ ref index, (d.aliases net)[index]? = some ref ∧ d.span net index ref = s) ∧
      ∀ ref index, (d.aliases net)[index]? = some ref → (d.span net index ref ∈ d.visit net low high ↔
        (d.span net index ref).low ≤ high ∧ low ≤ (d.span net index ref).high)) ∧
    let s := changes.foldl d.publish (d.bind resolved cells)
    d.InSync s ∧
    (∀ v < d.bound, ∀ p ∈ (d.view v).parts, d.Fits (d.start v).width p → ∀ i, p.Covers i →
      (s.cells v).visible.bit i = s.resolved (p.net.getD 0) (p.groupBit + (i - p.signalBit))) ∧
    ∀ c : NetChange β, if c.low ≤ c.high ∧ c.high < d.netWidth c.net then
        ∀ net i, (d.publish s c).resolved net i =
          if net = c.net ∧ c.low ≤ i ∧ i ≤ c.high then c.bits i else s.resolved net i
      else d.publish s c = s := by
  have hsync : d.InSync (changes.foldl d.publish (d.bind resolved cells)) := by
    have hstart : d.InSync (d.bind resolved cells) := fun v _ => ⟨rfl, fun t ht => by
      obtain ⟨x, -, rfl⟩ := Option.map_eq_some_iff.1 ht
      rfl⟩
    generalize d.bind resolved cells = s at hstart
    induction changes generalizing s with
    | nil => exact hstart
    | cons c changes ih => exact ih _ (publish_inSync hstart c)
  refine ⟨fun net low high => ?_, hsync, fun v hv p hp hfits i hi => ?_, fun c => ?_⟩
  · rw [visit_eq]
    refine ⟨(spans_sorted net).filter _, ?_, fun s hs => mem_spans.1 (mem_of_mem_filter hs),
      fun ref index href => ?_⟩
    · refine List.Nodup.sublist (List.filter_sublist.map _) ?_
      have hindex : AliasSpan.index ∘ (fun e : AliasRef × ℕ => d.span net e.2 e.1) = Prod.snd :=
        funext fun e => (span_spec net e.2 e.1).1
      rw [spans, ((mergeSort_perm _ _).map _).nodup_iff, map_map, hindex, zipIdx_map_snd]
      exact nodup_range'
    · rw [mem_filter, mem_spans, decide_eq_true_eq]
      exact and_iff_right ⟨ref, index, href, rfl⟩
  · rw [(hsync v hv).1]
    exact refresh_bit hp hfits hi
  · split_ifs with hfits
    · exact publish_resolved _ hfits.1 hfits.2
    · exact if_neg fun h => hfits ⟨h.1, h.2.1⟩

end AliasDesign

/-- A net of four bits and a view of it with its halves exchanged. -/
def exchangedHalves : AliasDesign Bool where
  netWidth _ := 4
  unknown := false
  bound := 1
  view _ := ⟨none, 4, [⟨some 0, 0, 2, 2⟩, ⟨some 0, 2, 0, 2⟩]⟩
  disjoint _ := by
    simp only [pairwise_cons, mem_singleton, forall_eq, AliasPart.Covers]
    refine ⟨fun i h => ?_, by simp⟩
    omega

/-- The upper half of the net changes, and the lower half of the view shows it. -/
theorem netAliases_show_exchanged :
    let cell : AliasCells Bool := ⟨⟨4, fun _ => false⟩, some ⟨4, fun _ => false⟩⟩
    let s := [⟨0, 2, 3, fun _ => true⟩].foldl exchangedHalves.publish
      (exchangedHalves.bind (fun _ _ => false) fun _ => cell)
    s.resolved 0 3 = true ∧ s.resolved 0 1 = false ∧
      (s.cells 0).visible.bit 1 = true ∧ (s.cells 0).visible.bit 2 = false := by
  intro cell s
  have hs := (exchangedHalves.netAliases_show (fun _ _ => false) (fun _ => cell) [⟨0, 2, 3, fun _ => true⟩]).2.2.1
    0 Nat.zero_lt_one
  have hnet := (exchangedHalves.netAliases_show (fun _ _ => false) (fun _ => cell) []).2.2.2
    ⟨0, 2, 3, fun _ => true⟩ 0
  exact ⟨hnet 3, hnet 1, (hs _ mem_cons_self (by decide) 1 (by decide)).trans (hnet 3),
    (hs ⟨some 0, 2, 0, 2⟩ (by decide) (by decide) 2 (by decide)).trans (hnet 0)⟩

end Lapligence.Scheduler
