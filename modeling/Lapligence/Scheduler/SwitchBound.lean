import Lapligence.Scheduler.SwitchSolve
import Mathlib.Algebra.Order.BigOperators.Group.List

/-!
# The items of a solve

A solve queues one item for every own level of its nodes and one whenever an offer raises an entry.
`switchLevels_total` says that the loops end.  `switchLevels_bound` bounds the items when all switches
reduce in the same way: levels are taken from the strongest down, so an entry rises at most once,
which makes eight items for a node, the bound of `switch_push`.

Where both kinds of switches meet an entry can rise twice (first to the level that a resistive switch
leaves, then to the level that another leaves), and the bound can be exceeded.
-/

namespace Lapligence.Scheduler

open Function List

variable {N : SwitchNetwork} {dominant : ℕ → Option Bool} {d : Bool} {C : Set ℕ}
variable {n : ℕ} {v v' top : ℤ} {e : Entry} {resistive : Bool}
  {L : ℤ} {held : List SwitchItem} {q q' : SwitchQueues}

/-! ## The start -/

def allEntries : List Entry := [.known false, .known true, .maybe false, .maybe true]

lemma mem_allEntries (e : Entry) : e ∈ allEntries := by
  obtain ⟨possible, side⟩ := e
  cases possible <;> cases side <;> decide

/-- Queueing the own levels of one node. -/
lemma switchStart_entries (n : ℕ) : ∀ (es : List Entry) (q q' : SwitchQueues),
    q' = es.foldl (fun q e =>
      if N.own n e ≥ 1 then switchPush N n e (N.own n e) q else q) q → q'.aborted = false →
    q.aborted = false ∧ q'.level = q.level ∧ (∀ l, ∀ i ∈ q.bucket l, i ∈ q'.bucket l) ∧
      (∀ e ∈ es, 1 ≤ N.own n e → ⟨n, e, false⟩ ∈ q'.bucket (N.own n e)) ∧
      ∀ l, ∀ i ∈ q'.bucket l, i ∈ q.bucket l ∨
        i.node = n ∧ i.deferred = false ∧ l = N.own n i.entry := by
  intro es
  induction es with
  | nil =>
    rintro q q' rfl hab
    exact ⟨hab, rfl, fun _ _ h => h, by simp, fun _ _ h => .inl h⟩
  | cons e es ih =>
    intro q q' hq' hab
    obtain ⟨hab₁, hlevel, hkept, hown, honly⟩ := ih _ q' hq' hab
    by_cases hpos : N.own n e ≥ 1
    · simp only [if_pos hpos] at hab₁ hlevel hkept honly
      obtain ⟨hab₀, -, hpush⟩ := switchPush_of_not_aborted hab₁
      simp only [hpush] at hlevel hkept honly
      refine ⟨hab₀, hlevel, fun l i hi => hkept l i (mem_filed.2 (.inl hi)), ?_, fun l i hi => ?_⟩
      · intro e' he' hpos'
        rcases mem_cons.mp he' with rfl | he'
        · exact hkept _ _ (mem_filed.2 (.inr ⟨rfl, rfl⟩))
        · exact hown e' he' hpos'
      · refine (honly l i hi).elim (fun hi => ?_) .inr
        rcases mem_filed.1 hi with hi | ⟨rfl, rfl⟩
        · exact .inl hi
        · exact .inr ⟨rfl, rfl, rfl⟩
    · simp only [if_neg hpos] at hab₁ hlevel hkept honly
      refine ⟨hab₁, hlevel, hkept, fun e' he' hpos' => ?_, honly⟩
      rcases mem_cons.mp he' with rfl | he'
      · exact absurd hpos' hpos
      · exact hown e' he' hpos'

/-- After the nodes `ns` have been started, everything comes from their own levels. -/
structure Started (N : SwitchNetwork) (ns : List ℕ) (q : SwitchQueues) : Prop where
  level : ∀ n ∈ ns, q.level n = N.own n
  queued : ∀ n ∈ ns, ∀ e, 1 ≤ N.own n e → ⟨n, e, false⟩ ∈ q.bucket (N.own n e)
  items : ∀ l, ∀ i ∈ q.bucket l, i.node ∈ ns ∧ i.deferred = false ∧ l = N.own i.node i.entry

lemma switchStart_fold : ∀ (ns pre : List ℕ) (q : SwitchQueues),
    (q.aborted = false → Started N pre q) → (ns.foldl (switchStart N) q).aborted = false →
    Started N (pre ++ ns) (ns.foldl (switchStart N) q) := by
  intro ns
  induction ns with
  | nil =>
    intro pre q h hab
    simpa using h hab
  | cons n ns ih =>
    intro pre q h hab
    have hstep : (switchStart N q n).aborted = false →
        Started N (pre ++ [n]) (switchStart N q n) := by
      intro hab₁
      obtain ⟨hab₀, hlevel, hkept, hown, honly⟩ := switchStart_entries n allEntries
        { q with level := update q.level n (N.own n) } _ rfl hab₁
      have hpre := h hab₀
      refine ⟨fun m hm => ?_, fun m hm e hpos => ?_, fun l i hi => ?_⟩
      · rw [switchStart]
        dsimp only [allEntries] at hlevel ⊢
        rw [hlevel]
        by_cases hmn : m = n
        · rw [hmn, update_self]
        · rw [update_of_ne hmn]
          exact hpre.level m (by simpa [hmn] using hm)
      · by_cases hmn : m = n
        · subst hmn
          exact hown e (mem_allEntries e) hpos
        · exact hkept _ _ (hpre.queued m (by simpa [hmn] using hm) e hpos)
      · rcases honly l i hi with hi | ⟨hnode, hdef, hl⟩
        · obtain ⟨h1, h2, h3⟩ := hpre.items l i hi
          exact ⟨mem_append_left _ h1, h2, h3⟩
        · subst hnode
          exact ⟨mem_append_right _ (mem_singleton_self _), hdef, hl⟩
    have := ih (pre ++ [n]) (switchStart N q n) hstep hab
    rwa [append_assoc, singleton_append] at this

/-- The invariant of the first level. -/
lemma Started.levelInv {ns : List ℕ} (h : q.aborted = false → Started N ns q) :
    LevelInv N dominant d {n | n ∈ ns} 7 [] q := by
  intro hab
  have hs := h hab
  have hlvl : ∀ p : ℕ × Entry, p.1 ∈ ns → q.lvl p = N.own p.1 p.2 := by
    intro p hp
    rw [SwitchQueues.lvl, hs.level p.1 hp]
  refine ⟨false, ⟨fun n hn _ => hs.level n hn, fun n hn e => ?_, fun n hn => ?_,
    fun p hp => .own (hlvl p hp), fun p hp hpos => .inr (.inr ?_), fun l i hi => (hs.items l i hi).1,
    by simp, fun l hl => ?_⟩, fun l i hi hflag => ?_, by simp, by simp⟩
  · rw [hs.level n hn]
  · rw [hs.level n hn]
    exact N.own_ok n
  · rw [hlvl p hp] at hpos
    refine ⟨⟨p.1, p.2, false⟩, .inl ?_, rfl, rfl, rfl, .inl rfl⟩
    rw [hlvl p hp]
    exact hs.queued p.1 hp p.2 hpos
  · refine eq_nil_iff_forall_not_mem.mpr fun i hi => ?_
    have hrange := (N.own_ok i.node).1 i.entry
    have := (hs.items l i hi).2.2
    omega
  · simp [(hs.items l i hi).2.1] at hflag

/-! ## The loop ends -/

/-- An item is taken at most twice, so it pays for three turns until it has waited. -/
def itemWeight (i : SwitchItem) : ℕ := if i.deferred then 1 else 3

/-- The turns left for the queue of level `l`, with four for each item still to come. -/
def potential (N : SwitchNetwork) (l : ℤ) (q : SwitchQueues) : ℕ :=
  ((q.bucket l).map itemWeight).sum + 4 * (N.nNodes * 8 - q.nItems)

lemma potential_push (n : ℕ) (e : Entry) (level l : ℤ) (q : SwitchQueues) :
    potential N l (switchPush N n e level q) ≤ potential N l q := by
  unfold switchPush
  split_ifs with hfull
  · exact le_rfl
  · unfold potential
    by_cases hl : l = level
    · subst hl
      simp only [update_self, map_append, sum_append, map_cons, map_nil,
        sum_cons, sum_nil, itemWeight, Bool.false_eq_true, if_false]
      omega
    · simp only [update_of_ne hl]
      omega

lemma potential_spread (n : ℕ) (e : Entry) (level l : ℤ) (q : SwitchQueues) :
    potential N l (switchSpread N n e level q) ≤ potential N l q := by
  unfold switchSpread
  revert q
  induction N.active n with
  | nil => exact fun q => le_rfl
  | cons s ss ih =>
    intro q
    refine (ih _).trans ?_
    beta_reduce
    rw [switchOffer_eq]
    split_ifs
    · exact le_rfl
    · exact potential_push _ _ _ _ _

/-- Replacing the queue of one level. -/
lemma potential_bucket (l : ℤ) (q : SwitchQueues) (items : List SwitchItem) :
    potential N l { q with bucket := update q.bucket L items } =
      if l = L then (items.map itemWeight).sum + 4 * (N.nNodes * 8 - q.nItems)
      else potential N l q := by
  unfold potential
  split_ifs with hl
  · rw [hl]
    simp only [update_self]
  · simp only [update_of_ne hl]

lemma sum_itemWeight_deferred : ∀ items : List SwitchItem, (∀ i ∈ items, i.deferred = true) →
    (items.map itemWeight).sum = items.length := by
  intro items
  induction items with
  | nil => exact fun _ => rfl
  | cons i items ih =>
    intro h
    rw [map_cons, sum_cons, ih fun j hj => h j (mem_cons_of_mem i hj),
      itemWeight, if_pos (h i mem_cons_self), length_cons]
    omega

/-- Enough fuel for one level. -/
lemma switchLevel_total (dominant : ℕ → Option Bool) : ∀ (fuel : ℕ) (held : List SwitchItem) (q : SwitchQueues),
    (∀ i ∈ held, i.deferred = true) → potential N L q + 2 * held.length < fuel →
    ∃ q', switchLevel N dominant L fuel held q = some q' ∧
      ∀ l, potential N l q' ≤ potential N l q + if l = L then 2 * held.length else 0 := by
  intro fuel
  induction fuel with
  | zero => omega
  | succ fuel ih =>
    intro held q hheld hfuel
    rw [switchLevel]
    cases hbucket : q.bucket L with
    | nil =>
      dsimp only
      split_ifs with hempty
      · exact ⟨q, rfl, fun l => Nat.le_add_right _ _⟩
      have hlen : 0 < held.length := length_pos_iff.mpr hempty
      have hbase : potential N L q = 4 * (N.nNodes * 8 - q.nItems) := by simp [potential, hbucket]
      have hnew := potential_bucket (N := N) (L := L) L q held
      rw [if_pos rfl, sum_itemWeight_deferred held hheld] at hnew
      obtain ⟨q', hrun, hpot⟩ := ih [] { q with bucket := update q.bucket L held } (by simp)
        (by simp only [length_nil]; omega)
      refine ⟨q', hrun, fun l => (hpot l).trans ?_⟩
      by_cases hl : l = L
      · subst hl
        simp only [if_true, length_nil]
        omega
      · rw [potential_bucket, if_neg hl, if_neg hl, if_neg hl]
    | cons item rest =>
      have hbase : potential N L q = itemWeight item + (rest.map itemWeight).sum +
          4 * (N.nNodes * 8 - q.nItems) := by
        simp [potential, hbucket]
      have hpop := fun l => potential_bucket (N := N) (L := L) l q rest
      have hweight : 1 ≤ itemWeight item := by
        unfold itemWeight
        split_ifs <;> omega
      set q₁ : SwitchQueues := { q with bucket := update q.bucket L rest } with hq₁
      have hpopL := hpop L
      rw [if_pos rfl] at hpopL
      have hle : ∀ l, potential N l q₁ ≤ potential N l q := by
        intro l
        rw [hpop l]
        split_ifs with hl
        · subst hl
          omega
        · exact le_rfl
      -- Going on with the same items held, from any state that costs no more.
      have hgo : ∀ q₂, (∀ l, potential N l q₂ ≤ potential N l q₁) →
          ∃ q', switchLevel N dominant L fuel held q₂ = some q' ∧
            ∀ l, potential N l q' ≤ potential N l q + if l = L then 2 * held.length else 0 := by
        intro q₂ hq₂
        have hL := hq₂ L
        obtain ⟨q', hrun, hpot⟩ := ih held q₂ hheld (by omega)
        exact ⟨q', hrun, fun l => (hpot l).trans
          (Nat.add_le_add_right ((hq₂ l).trans (hle l)) _)⟩
      dsimp only
      split_ifs with hstale hblocked hfirst hwired
      · exact hgo q₁ fun _ => le_rfl
      · exact hgo q₁ fun _ => le_rfl
      · have hthree : itemWeight item = 3 := by
          have : item.deferred = false := by simpa using hfirst.2
          simp [itemWeight, this]
        obtain ⟨q', hrun, hpot⟩ := ih (held ++ [{ item with deferred := true }]) q₁
          (by
            intro i hi
            rcases mem_append.mp hi with hi | hi
            · exact hheld i hi
            · rw [mem_singleton.mp hi])
          (by simp only [length_append, length_singleton]; omega)
        refine ⟨q', hrun, fun l => (hpot l).trans ?_⟩
        have hl' := hle l
        by_cases hl : l = L
        · subst hl
          simp only [if_true, length_append, length_singleton]
          omega
        · simpa only [if_neg hl, add_zero] using hl'
      · exact hgo q₁ fun _ => le_rfl
      · exact hgo _ fun l => potential_spread _ _ _ _ _

lemma switchLevels_total (dominant : ℕ → Option Bool) : ∀ (k : ℕ) (q : SwitchQueues),
    (∀ l, potential N l q ≤ N.nNodes * 32) → ∃ q', switchLevels N dominant k q = some q' := by
  intro k
  induction k with
  | zero => exact fun q _ => ⟨q, rfl⟩
  | succ k ih =>
    intro q hq
    obtain ⟨q₁, hrun, hpot⟩ := switchLevel_total (N := N) (L := (k + 1 : ℕ)) dominant
      (N.nNodes * 32 + 1) [] q (by simp)
      (by have := hq (k + 1 : ℕ); simp only [length_nil]; omega)
    have hpot' : ∀ l, potential N l q₁ ≤ N.nNodes * 32 := by
      intro l
      have h1 := hpot l
      have h2 := hq l
      simp only [length_nil, mul_zero, ite_self, add_zero] at h1
      omega
    obtain ⟨q₂, hrest⟩ := ih q₁ hpot'
    exact ⟨q₂, by simp only [switchLevels, hrun, Option.bind_eq_bind, Option.bind_some, hrest]⟩

lemma potential_start (l : ℤ) : ∀ (ns : List ℕ) (q : SwitchQueues),
    potential N l (ns.foldl (switchStart N) q) ≤ potential N l q := by
  have hentries : ∀ (n : ℕ) (es : List Entry) (q : SwitchQueues),
      potential N l (es.foldl (fun q e =>
        if N.own n e ≥ 1 then switchPush N n e (N.own n e) q else q) q) ≤ potential N l q := by
    intro n es
    induction es with
    | nil => exact fun q => le_rfl
    | cons e es ih =>
      intro q
      refine (ih _).trans ?_
      beta_reduce
      split_ifs
      · exact potential_push _ _ _ _ _
      · exact le_rfl
  intro ns
  induction ns with
  | nil => exact fun q => le_rfl
  | cons n ns ih => exact fun q => (ih _).trans (hentries n allEntries _)

/-! ## The bound on the items -/

/-- The entries of a node that can still rise when level `L` is taken: those below what a switch
leaves of it. -/
def risesLeft (resistive : Bool) (L : ℤ) (levels : Entry → ℤ) : ℕ :=
  (allEntries.map fun e => if levels e < switchReduce L resistive then 1 else 0).sum

lemma rise_mono {l l' : ℤ} (hl : l' ≤ l) (hv : v ≤ v') :
    (if v' < l' then 1 else 0) ≤ if v < l then 1 else 0 := by
  split_ifs <;> omega

lemma risesLeft_mono {L' : ℤ} {levels levels' : Entry → ℤ}
    (hL : switchReduce L' resistive ≤ switchReduce L resistive) (h : ∀ e, levels e ≤ levels' e) :
    risesLeft resistive L' levels' ≤ risesLeft resistive L levels :=
  sum_le_sum fun e _ => rise_mono hL (h e)

variable {ns : List ℕ}

/-- What the levels from `L` on keep: the items queued and the rises still possible are within the
bound. -/
structure BoundInv (N : SwitchNetwork) (ns : List ℕ) (resistive : Bool) (L : ℤ)
    (held : List SwitchItem) (q : SwitchQueues) : Prop where
  running : q.aborted = false
  room : q.nItems + (ns.map fun n => risesLeft resistive L (q.level n)).sum ≤ N.nNodes * 8
  items : ∀ l, ∀ i ∈ q.bucket l, i.node ∈ ns
  held_mem : ∀ i ∈ held, i.node ∈ ns

lemma offerLevels_le (levels : Entry → ℤ) (side known : Bool) (level : ℤ) (e : Entry) :
    levels e ≤ offerLevels levels side known level e := by
  unfold offerLevels
  split_ifs
  · exact le_max_left _ _
  · exact le_rfl

lemma BoundInv.offer (h : BoundInv N ns resistive L held q) (hn : n ∈ ns) (side known : Bool) :
    BoundInv N ns resistive L held (switchOffer N n side known (switchReduce L resistive) q) := by
  rw [switchOffer_eq]
  split_ifs with hnoop
  · exact h
  simp only [not_or, not_le] at hnoop
  set level := switchReduce L resistive with hlevel
  set q₁ : SwitchQueues :=
    { q with level := update q.level n (offerLevels (q.level n) side known level) } with hq₁
  have hle : ∀ m e, q.level m e ≤ q₁.level m e := by
    intro m e
    by_cases hm : m = n
    · subst hm
      simp only [hq₁, update_self]
      exact offerLevels_le _ _ _ _ _
    · simp only [hq₁, update_of_ne hm]
      exact le_rfl
  have hreached : level ≤ q₁.level n (offerEntry side known) := by
    simp only [hq₁, update_self]
    rw [offerLevels, if_pos ⟨rfl, by cases known <;> simp⟩]
    exact le_max_right _ _
  -- the offered entry rises, so one possible rise is used up
  have hnode : risesLeft resistive L (q₁.level n) < risesLeft resistive L (q.level n) := by
    refine sum_lt_sum _ _ (fun e _ => rise_mono le_rfl (hle n e))
      ⟨offerEntry side known, mem_allEntries _, ?_⟩
    rw [← hlevel, if_neg (not_lt.2 hreached), if_pos hnoop.2.2]
    exact Nat.zero_lt_one
  have hsum : (ns.map fun m => risesLeft resistive L (q₁.level m)).sum <
      (ns.map fun m => risesLeft resistive L (q.level m)).sum :=
    sum_lt_sum _ _ (fun m _ => risesLeft_mono le_rfl (hle m)) ⟨n, hn, hnode⟩
  have hroom := h.room
  have hpush : switchPush N n (offerEntry side known) level q₁ = { q₁ with
      bucket := update q₁.bucket level (q₁.bucket level ++ [⟨n, offerEntry side known, false⟩])
      nItems := q₁.nItems + 1 } := by
    rw [switchPush, if_neg]
    change ¬q.nItems ≥ _
    omega
  rw [hpush]
  refine ⟨h.running, ?_, fun l i hi => ?_, h.held_mem⟩
  · change q.nItems + 1 + (ns.map fun m => risesLeft resistive L (q₁.level m)).sum ≤ _
    omega
  · rcases mem_filed.1 hi with hi | ⟨-, rfl⟩
    · exact h.items l i hi
    · exact hn

/-- Nodes with everything their switches that are not off lead to, all of one kind. -/
structure UniformNodes (N : SwitchNetwork) (ns : List ℕ) (resistive : Bool) : Prop where
  closed : ∀ n ∈ ns, ∀ s ∈ N.active n, switchOther N s n ∈ ns
  kind : ∀ n ∈ ns, ∀ s ∈ N.active n, (N.switches s).resistive = resistive

lemma BoundInv.spread (hns : UniformNodes N ns resistive) (hn : n ∈ ns) (e : Entry)
    (h : BoundInv N ns resistive L held q) :
    BoundInv N ns resistive L held (switchSpread N n e L q) := by
  have hfold : ∀ (ss : List ℕ) (q : SwitchQueues), (∀ s ∈ ss, s ∈ N.active n) →
      BoundInv N ns resistive L held q → BoundInv N ns resistive L held (ss.foldl (fun q s =>
        switchOffer N (switchOther N s n) e.side (!e.possible && N.state s == .on)
          (switchReduce L (N.switches s).resistive) q) q) := by
    intro ss
    induction ss with
    | nil => exact fun q _ h => h
    | cons s ss ih =>
      intro q hss h
      have hs := hss s mem_cons_self
      refine ih _ (fun s hs => hss s (mem_cons_of_mem _ hs)) ?_
      beta_reduce
      rw [hns.kind n hn s hs]
      exact h.offer (hns.closed n hn s hs) _ _
  exact hfold _ q (fun _ h => h) h

/-- **No level exceeds the bound on the items.** -/
lemma switchLevels_bound (hns : UniformNodes N ns resistive) :
    ∀ (k : ℕ) (q q' : SwitchQueues), k ≤ 7 → BoundInv N ns resistive k [] q →
      switchLevels N dominant k q = some q' → q'.aborted = false := by
  intro k
  induction k with
  | zero =>
    intro q q' _ h hrun
    cases hrun
    exact h.running
  | succ k ih =>
    intro q q' hk h hrun
    simp only [switchLevels, Option.bind_eq_bind, Option.bind_eq_some_iff] at hrun
    obtain ⟨q₁, hlevel, hrest⟩ := hrun
    have hpop : ∀ held q item rest, BoundInv N ns resistive (k + 1 : ℕ) held q →
        q.bucket (k + 1 : ℕ) = item :: rest → BoundInv N ns resistive (k + 1 : ℕ) held
          { q with bucket := update q.bucket (k + 1 : ℕ) rest } := by
      intro held q item rest h hbucket
      refine { h with items := fun l i hi => ?_ }
      by_cases hl : l = (k + 1 : ℕ)
      · subst hl
        simp only [update_self] at hi
        exact h.items _ i (hbucket ▸ mem_cons_of_mem item hi)
      · simp only [update_of_ne hl] at hi
        exact h.items l i hi
    have hrequeue : ∀ held q, BoundInv N ns resistive (k + 1 : ℕ) held q →
        q.bucket (k + 1 : ℕ) = [] → BoundInv N ns resistive (k + 1 : ℕ) []
          { q with bucket := update q.bucket (k + 1 : ℕ) held } := by
      intro held q h _
      refine { h with items := fun l i hi => ?_, held_mem := by simp }
      by_cases hl : l = (k + 1 : ℕ)
      · subst hl
        simp only [update_self] at hi
        exact h.held_mem i hi
      · simp only [update_of_ne hl] at hi
        exact h.items l i hi
    obtain ⟨h₁, -⟩ := switchLevel_rule (BoundInv N ns resistive (k + 1 : ℕ)) hrequeue
      (fun held q item rest h hbucket _ => hpop held q item rest h hbucket)
      (fun held q item rest h hbucket _ => { hpop held q item rest h hbucket with
        held_mem := fun i hi => by
          rcases mem_append.mp hi with hi | hi
          · exact h.held_mem i hi
          · rw [mem_singleton.mp hi]
            exact h.items _ item (hbucket ▸ mem_cons_self) })
      (fun held q item rest h hbucket hlvl _ _ => by
        have hmem := h.items _ item (hbucket ▸ mem_cons_self)
        exact (hpop held q item rest h hbucket).spread hns hmem item.entry) _ [] q q₁ h hlevel
    refine ih q₁ q' (by omega) { h₁ with room := le_trans (Nat.add_le_add_left ?_ _) h₁.room } hrest
    exact sum_le_sum fun n _ => risesLeft_mono (switchReduce_mono (by omega) (by omega) (by omega) _)
      fun e => le_rfl

/-- The start: at most four items for each node. -/
lemma switchStart_bound : ∀ (rest : List ℕ) (q : SwitchQueues), q.aborted = false →
    q.nItems + 4 * rest.length ≤ N.nNodes * 8 → (rest.foldl (switchStart N) q).aborted = false ∧
      (rest.foldl (switchStart N) q).nItems ≤ q.nItems + 4 * rest.length := by
  have hentries : ∀ (n : ℕ) (es : List Entry) (q : SwitchQueues), q.aborted = false →
      q.nItems + es.length ≤ N.nNodes * 8 →
      let q' := es.foldl (fun q e =>
        if N.own n e ≥ 1 then switchPush N n e (N.own n e) q else q) q
      q'.aborted = false ∧ q'.nItems ≤ q.nItems + es.length := by
    intro n es
    induction es with
    | nil => exact fun q hab _ => ⟨hab, le_rfl⟩
    | cons e es ih =>
      intro q hab hroom
      rw [length_cons] at hroom
      simp only [foldl_cons, length_cons]
      split_ifs with hpos
      · rw [switchPush, if_neg (by omega)]
        obtain ⟨h1, h2⟩ := ih { q with
          bucket := update q.bucket (N.own n e) (q.bucket (N.own n e) ++ [⟨n, e, false⟩])
          nItems := q.nItems + 1 } hab (by dsimp only; omega)
        exact ⟨h1, h2.trans (by dsimp only; omega)⟩
      · obtain ⟨h1, h2⟩ := ih q hab (by omega)
        exact ⟨h1, h2.trans (by omega)⟩
  intro rest
  induction rest with
  | nil => exact fun q hab _ => ⟨hab, le_rfl⟩
  | cons n rest ih =>
    intro q hab hroom
    rw [length_cons] at hroom
    obtain ⟨h1, h2⟩ := hentries n allEntries { q with level := update q.level n (N.own n) } hab
      (by simp only [allEntries, length_cons, length_nil]; omega)
    simp only [allEntries, length_cons, length_nil] at h2
    obtain ⟨h3, h4⟩ := ih (switchStart N q n) h1 (by rw [switchStart]; omega)
    refine ⟨h3, h4.trans ?_⟩
    rw [length_cons, switchStart]
    omega

/-- The whole solve stays within the bound when all switches reduce in the same way: an entry is
queued for its own level, and once more when it rises. -/
lemma switchLevels_not_aborted (hns : UniformNodes N ns resistive) (hlength : ns.length ≤ N.nNodes)
    {q₀ : SwitchQueues} (hq₀ : q₀.aborted = false ∧ q₀.nItems = 0 ∧ ∀ l, q₀.bucket l = [])
    (hrun : switchLevels N dominant 7 (ns.foldl (switchStart N) q₀) = some q) :
    q.aborted = false := by
  obtain ⟨hab, hitems⟩ := switchStart_bound (N := N) ns q₀ hq₀.1 (by omega)
  have hs : Started N ns (ns.foldl (switchStart N) q₀) := by
    have := switchStart_fold ns [] q₀ (fun _ => ⟨by simp, by simp, by simp [hq₀.2.2]⟩) hab
    simpa using this
  have hrises : ∀ levels : Entry → ℤ, risesLeft resistive (7 : ℕ) levels ≤ 4 := by
    intro levels
    refine (sum_le_card_nsmul _ 1 fun k hk => ?_).trans_eq rfl
    obtain ⟨e, -, rfl⟩ := mem_map.1 hk
    split_ifs <;> omega
  have hsum := sum_le_card_nsmul (ns.map fun n =>
    risesLeft resistive (7 : ℕ) ((ns.foldl (switchStart N) q₀).level n)) 4 fun k hk => by
      obtain ⟨n, -, rfl⟩ := mem_map.1 hk
      exact hrises _
  rw [length_map, Nat.nsmul_eq_mul] at hsum
  exact switchLevels_bound hns 7 _ q le_rfl
    ⟨hab, by omega, fun l i hi => (hs.items l i hi).1, by simp⟩ hrun

end Lapligence.Scheduler
