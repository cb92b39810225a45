import Lapligence.Value.Agreement
import Lapligence.Value.Merges
import Lapligence.Value.PowerSpecs
import Lapligence.Value.Nets
import Lapligence.Value.Storage

/-!
# Every value of the backend is canonical

`Operation` lists the operations of the wide value backend that return a value or update one in place.  From
canonical operands each of them returns a canonical value, on the fast paths as on the others, so that every
value that a program can build with them is canonical (`Produced.canonical`).

What canonical values are compared for: `llg_gmp_sv4_same` compares words, and the case equality of the
language compares operands of one width and sign.  The two agree except where signed operands of different
widths are extended (`caseEqual_iff_same_convert`).
-/

namespace Lapligence.Value

open WordLists Constraints List

/-! ## The operations -/

/-- An operation of the backend with its operands. -/
inductive Operation where
  -- construction
  | zero (width : ℕ) (sign : Bool)
  | fill (state width : ℕ) (sign : Bool)
  | fromU64 (bits : BitVec 64) (width : ℕ) (sign : Bool)
  | fromI64 (bits : BitVec 64) (width : ℕ)
  | fromMasks (bits x z : BitVec 64) (width : ℕ) (sign : Bool)
  | fromLimbs (bits x z : Words) (width : ℕ) (sign : Bool)
  | fromReal (value : Double) (width : ℕ) (sign : Bool)
  | rtoi (value : Double)
  | realtobits (value : Double)
  | shortrealtobits (rounded : BitVec 32)
  -- conversion
  | resize (v : G4) (width : ℕ) (sign : Bool)
  | cast (v : G4) (width : ℕ) (sign : Bool)
  | toTwoState (v : G4)
  | copy (v source : G4)
  | setSigned (v : G4) (sign : Bool)
  -- arithmetic, logic and comparison
  | binary (a b : G4) (op : BinaryOp)
  | binaryInto (dst a b : G4) (shared : Aliases) (op : BinaryOp)
  | divmod (a b : G4) (remainder : Bool)
  | pow (a b : G4)
  | neg (v : G4)
  | bitneg (v : G4)
  | lognot (v : G4)
  | logand (a b : G4)
  | logor (a b : G4)
  | logimpl (a b : G4)
  | logequiv (a b : G4)
  | compare (a b : G4) (op : CompareOp)
  | matchMode (a b : G4) (mode : MatchMode)
  | insideRange (value low high : G4)
  | mux (sel a b : G4)
  | shift (v count : G4) (right arithmetic : Bool)
  | reduce (v : G4) (kind : ReduceKind) (invert : Bool)
  | clog2 (v : G4)
  | countones (v : G4)
  | onehot (v : G4) (allowZero : Bool)
  -- selections
  | bitSelect (v : G4) (index : ℕ)
  | partSelect (v : G4) (left right : ℤ)
  | idxPartSelect (v : G4) (base width : ℕ) (negative : Bool)
  | idxPartSelectValue (v base : G4) (width : ℕ) (negative : Bool)
  | selectPlanRead (v : G4) (plan : SelectPlan)
  | selectPlanSlice (v : G4) (plan : SelectPlan) (reverse : Bool)
  -- partial writes
  | setVpiWord (v : G4) (word : ℕ) (aval bval : BitVec 64)
  | setWord (v : G4) (word : ℕ) (bits x z : BitVec 64)
  | setState (v : G4) (bit state : ℕ)
  | bitSelectSet (dst : G4) (index : ℕ) (source : G4)
  | partSelectSet (dst : G4) (left right : ℤ) (source : G4)
  | idxPartSelectSet (dst : G4) (base width : ℕ) (negative : Bool) (source : G4)
  | idxPartSelectSetValue (dst base : G4) (width : ℕ) (negative : Bool) (source : G4)
  | selectPlanSet (dst : G4) (plan : SelectPlan) (source : G4)
  | maskedWrite (target source mask : G4) (shared clipped : Bool)
  | rangeCopy (target : G4) (offset : ℕ) (source : G4) (shared : Bool)
  | rangeFill (target : G4) (low count state : ℕ)
  | maskRemove (target removed : G4)
  | maskTop (v : G4)
  | mulAddKnown (v : G4) (factor addend : BitVec 32)
  | negateKnown (v : G4)
  | twoStateInplace (v : G4)
  | appendDigit (v : G4) (count state : ℕ) (digit : BitVec 64)
  -- concatenation and merges
  | concat (hi lo : G4)
  | replicate (pattern : G4) (count : ℕ)
  | repeatCount (v : G4)
  | stream (v : G4) (slice : ℕ) (reverse : Bool)
  | arrayConditionalMerge (a b elementDefault : G4)
  | recordConditionalMerge (a b periodDefault leafStarts : G4)
  -- imports
  | importVpiWords (v : G4) (first : ℕ) (input : List (BitVec 64 × BitVec 64))
  | importWords (v : G4) (first : ℕ) (input : List StateWord)
  | importVpi32 (v : G4) (input : List (BitVec 32 × BitVec 32))
  -- nets
  | resolve (drivers : List (Option G4)) (width : ℕ) (sign : Bool) (mode : ResolveMode)
  | resolveStrengths (drivers : List (Option G4)) (strength0 strength1 : List ℕ) (width : ℕ) (sign : Bool)
      (mode : ResolveMode)
  | resolveStrengthsRange (drivers : List (Option G4)) (strength0 strength1 : List ℕ) (indices : List ℤ)
      (sourceWidth offset width : ℕ) (sign : Bool) (mode : ResolveMode)
  | enumNavigate (current step : G4) (values : List G4) (defaultValue : G4) (direction : ℤ)
  | udpEval (rows : List (List ℕ)) (inputs : List G4)

namespace Operation

/-- The values that an operation reads. -/
def inputs : Operation → List G4
  | .zero .. | .fill .. | .fromU64 .. | .fromI64 .. | .fromMasks .. | .fromLimbs .. | .fromReal .. | .rtoi ..
  | .realtobits .. | .shortrealtobits .. => []
  | .resize v _ _ | .cast v _ _ | .toTwoState v | .setSigned v _ | .neg v | .bitneg v | .lognot v
  | .reduce v _ _ | .clog2 v | .countones v | .onehot v _ | .bitSelect v _ | .partSelect v _ _
  | .idxPartSelect v _ _ _ | .selectPlanRead v _ | .selectPlanSlice v _ _ | .setVpiWord v _ _ _
  | .setWord v _ _ _ _ | .setState v _ _ | .rangeFill v _ _ _ | .maskTop v | .mulAddKnown v _ _
  | .negateKnown v | .twoStateInplace v | .appendDigit v _ _ _ | .replicate v _ | .repeatCount v | .stream v _ _
  | .importVpiWords v _ _ | .importWords v _ _ | .importVpi32 v _ => [v]
  | .copy a b | .binary a b _ | .divmod a b _ | .pow a b | .logand a b | .logor a b | .logimpl a b
  | .logequiv a b | .compare a b _ | .matchMode a b _ | .shift a b _ _ | .idxPartSelectValue a b _ _
  | .bitSelectSet a _ b | .partSelectSet a _ _ b | .idxPartSelectSet a _ _ _ b | .selectPlanSet a _ b
  | .rangeCopy a _ b _ | .maskRemove a b | .concat a b => [a, b]
  | .binaryInto a b c _ _ | .insideRange a b c | .mux a b c | .idxPartSelectSetValue a b _ _ c
  | .maskedWrite a b c _ _ | .arrayConditionalMerge a b c => [a, b, c]
  | .recordConditionalMerge a b c d => [a, b, c, d]
  | .resolve drivers _ _ _ | .resolveStrengths drivers _ _ _ _ _
  | .resolveStrengthsRange drivers _ _ _ _ _ _ _ _ => drivers.reduceOption
  | .enumNavigate current step values defaultValue _ => current :: step :: defaultValue :: values
  | .udpEval _ inputs => inputs

/-- What the header asks of the callers: a copied range fits, and a destination that shares the words of an
operand has them. -/
def Allowed : Operation → Prop
  | .rangeCopy target offset source _ => offset + source.width ≤ target.width
  | .binaryInto dst a b shared _ => shared.Valid dst a b
  | _ => True

/-- The value that an operation returns or leaves in its target; a failed check aborts the program. -/
def run : Operation → Option G4
  | .zero width sign => some (llgGmpSv4Zero width sign)
  | .fill state width sign => if state > 3 then none else some (llgGmpSv4Fill state width sign)
  | .fromU64 bits width sign => some (llgGmpSv4FromU64 bits width sign)
  | .fromI64 bits width => some (llgGmpSv4FromI64 bits width)
  | .fromMasks bits x z width sign => llgGmpSv4FromMasks bits x z width sign
  | .fromLimbs bits x z width sign => llgGmpSv4FromLimbs bits x z width sign
  | .fromReal value width sign => some (llgGmpSv4FromReal value width sign)
  | .rtoi value => some (llgGmpSv4Rtoi value)
  | .realtobits value => some (llgGmpSv4Realtobits value)
  | .shortrealtobits rounded => some (llgGmpSv4Shortrealtobits rounded)
  | .resize v width sign => some (llgGmpSv4Resize v width sign)
  | .cast v width sign => some (llgGmpSv4Cast v width sign)
  | .toTwoState v => some (llgGmpSv4ToTwoState v)
  | .copy v source => some (llgGmpSv4Copy v source)
  | .setSigned v sign => some { v with isSigned := sign }
  | .binary a b op => some (g4Binary a b op)
  | .binaryInto dst a b shared op => some (g4BinaryInto dst a b shared op)
  | .divmod a b remainder => some (g4Divmod a b remainder)
  | .pow a b => some (llgGmpSv4Pow a b)
  | .neg v => some (llgGmpSv4Neg v)
  | .bitneg v => some (llgGmpSv4Bitneg v)
  | .lognot v => some (llgGmpSv4Lognot v)
  | .logand a b => some (llgGmpSv4Logand a b)
  | .logor a b => some (llgGmpSv4Logor a b)
  | .logimpl a b => some (llgGmpSv4Logimpl a b)
  | .logequiv a b => some (llgGmpSv4Logequiv a b)
  | .compare a b op => some (g4Compare a b op)
  | .matchMode a b mode => some (g4Match a b mode)
  | .insideRange value low high => some (llgGmpSv4Logand (g4Compare value low .ge) (g4Compare value high .le))
  | .mux sel a b => some (llgGmpSv4Mux sel a b)
  | .shift v count right arithmetic => some (g4Shift v count right arithmetic)
  | .reduce v kind invert => some (g4Reduce v kind invert)
  | .clog2 v => some (llgGmpSv4Clog2 v)
  | .countones v => some (llgGmpSv4Countones v)
  | .onehot v allowZero => some (llgGmpSv4Onehot v allowZero)
  | .bitSelect v index => some (llgGmpSv4BitSelect v index)
  | .partSelect v left right => llgGmpSv4PartSelect v left right
  | .idxPartSelect v base width negative => llgGmpSv4IdxPartSelect v base width negative
  | .idxPartSelectValue v base width negative => llgGmpSv4IdxPartSelectValue v base width negative
  | .selectPlanRead v plan => llgGmpSv4SelectPlanRead v plan
  | .selectPlanSlice v plan reverse => llgGmpSv4SelectPlanSlice v plan reverse
  | .setVpiWord v word aval bval => some (llgGmpSv4SetVpiWord v word aval bval)
  | .setWord v word bits x z => some (llgGmpSv4SetWord v word bits x z)
  | .setState v bit state => llgGmpSv4SetState v bit state
  | .bitSelectSet dst index source => llgGmpSv4BitSelectSet dst index source
  | .partSelectSet dst left right source => llgGmpSv4PartSelectSet dst left right source
  | .idxPartSelectSet dst base width negative source => llgGmpSv4IdxPartSelectSet dst base width negative source
  | .idxPartSelectSetValue dst base width negative source =>
    llgGmpSv4IdxPartSelectSetValue dst base width negative source
  | .selectPlanSet dst plan source => llgGmpSv4SelectPlanSet dst plan source
  | .maskedWrite target source mask shared clipped => some (Value.maskedWrite target source mask shared clipped)
  | .rangeCopy target offset source shared => some (llgGmpSv4RangeCopy target offset source shared)
  | .rangeFill target low count state => some (llgGmpSv4RangeFill target low count state)
  | .maskRemove target removed => some (llgGmpSv4MaskRemove target removed)
  | .maskTop v => some (llgGmpSv4MaskTop v)
  | .mulAddKnown v factor addend => some (llgGmpSv4MulAddKnown v factor addend)
  | .negateKnown v => some (llgGmpSv4NegateKnown v)
  | .twoStateInplace v => some (llgGmpSv4TwoStateInplace v)
  | .appendDigit v count state digit => some (llgGmpSv4AppendDigit v count state digit)
  | .concat hi lo => llgGmpSv4Concat hi lo
  | .replicate pattern count => llgGmpSv4Repeat pattern count
  | .repeatCount v => some (llgGmpSv4RepeatCount v)
  | .stream v slice reverse => llgGmpSv4Stream v slice reverse
  | .arrayConditionalMerge a b elementDefault => llgGmpSv4ArrayConditionalMerge a b elementDefault
  | .recordConditionalMerge a b periodDefault leafStarts =>
    llgGmpSv4RecordConditionalMerge a b periodDefault leafStarts
  | .importVpiWords v first input => some (llgGmpSv4ImportVpiWords v first input)
  | .importWords v first input => some (llgGmpSv4ImportWords v first input)
  | .importVpi32 v input => some (llgGmpSv4ImportVpi32 v input)
  | .resolve drivers width sign mode => llgGmpSv4Resolve drivers width sign mode
  | .resolveStrengths drivers strength0 strength1 width sign mode =>
    llgGmpSv4ResolveStrengths drivers strength0 strength1 width sign mode
  | .resolveStrengthsRange drivers strength0 strength1 indices sourceWidth offset width sign mode =>
    llgGmpSv4ResolveStrengthsRange drivers strength0 strength1 indices sourceWidth offset width sign mode
  | .enumNavigate current step values defaultValue direction =>
    some (llgGmpSv4EnumNavigate current step values defaultValue direction)
  | .udpEval rows inputs => llgGmpSv4UdpEval rows inputs

end Operation

/-! ## Operators -/

section Operators

variable {a b v : G4}

lemma g4Compare_canonical (ha : a.Canonical) (hb : b.Canonical) (op : CompareOp) :
    (g4Compare a b op).Canonical := by
  by_cases heq : op = .eq
  · subst heq
    exact (g4Compare_eq_yields ha hb).canonical
  · by_cases hcase : op = .caseEq
    · subst hcase
      exact (g4Compare_caseEq_yields ha hb).canonical
    · exact (g4Compare_order_yields ha hb heq hcase).canonical

lemma g4Match_canonical (a b : G4) (mode : MatchMode) : (g4Match a b mode).Canonical := by
  rw [g4Match]
  by_cases hwide : g4Maxw a b > 64
  · rw [if_pos hwide, llgGmpSv4MatchWide]
    cases matchLoop mode _ _ _ false <;> exact g4Predicate_canonical _
  · rw [if_neg hwide]
    cases mode with
    | casex | casez => exact g4Predicate_canonical _
    | wild =>
      simp only
      split_ifs <;> exact g4Predicate_canonical _

lemma g4Divmod_canonical (ha : a.Canonical) (hb : b.Canonical) (remainder : Bool) :
    (g4Divmod a b remainder).Canonical := by
  have hspec := g4Divmod_spec ha hb remainder
  simp only [DividesAs] at hspec
  split_ifs at hspec with hunknown
  · rw [hspec]
    exact llgGmpSv4X_canonical ..
  · exact hspec.1

end Operators

/-- The value of a selection is canonical. -/
lemma Selection.read_canonical {v : G4} (sel : Selection) (h : v.Canonical) (hsel : sel.Canonical) :
    ∀ out ∈ sel.read v, out.Canonical := by
  intro out hout
  by_cases hwidth : sel.width < llgGmpSupportedWidthLimit
  · obtain ⟨_, _, hread, hyields, -⟩ := Selection.read_yields h hsel hwidth
    cases hread.symm.trans hout
    exact hyields.canonical
  · cases ((selection_unsupported (Nat.not_lt.1 hwidth)).1 v).symm.trans hout

lemma Selection.write_canonical {v source : G4} (sel : Selection) (h : v.Canonical) (hsource : source.Canonical)
    (hsel : sel.Canonical) : ∀ out ∈ sel.write v source, out.Canonical := by
  intro out hout
  by_cases hwidth : sel.width < llgGmpSupportedWidthLimit
  · obtain ⟨_, hwrite, hcanonical, -⟩ := selection_writes h hsource hsel hwidth
    cases hwrite.symm.trans hout
    exact hcanonical
  · cases ((selection_unsupported (Nat.not_lt.1 hwidth)).2.1 v source).symm.trans hout

lemma some_canonical {x : G4} (h : x.Canonical) : ∀ out ∈ some x, out.Canonical := by
  rintro _ ⟨⟩
  exact h

/-- An operation returns a canonical value for canonical operands. -/
lemma Operation.run_canonical {op : Operation} (hallowed : op.Allowed) (hin : ∀ v ∈ op.inputs, v.Canonical) :
    ∀ out ∈ op.run, out.Canonical := by
  have first : ∀ {v : G4} {rest : List G4}, op.inputs = v :: rest → v.Canonical :=
    fun h => hin _ (h ▸ mem_cons_self)
  have second : ∀ {u v : G4} {rest : List G4}, op.inputs = u :: v :: rest → v.Canonical :=
    fun h => hin _ (h ▸ mem_cons_of_mem _ mem_cons_self)
  have third : ∀ {t u v : G4} {rest : List G4}, op.inputs = t :: u :: v :: rest → v.Canonical :=
    fun h => hin _ (h ▸ mem_cons_of_mem _ (mem_cons_of_mem _ mem_cons_self))
  cases op with
  | zero => exact some_canonical (llgGmpSv4Zero_canonical ..)
  | fill state width sign =>
    rw [Operation.run]
    split_ifs
    · rintro _ ⟨⟩
    · exact some_canonical (llgGmpSv4Fill_spec state width sign).1
  | fromU64 => exact some_canonical (llgGmpSv4FromU64_canonical ..)
  | fromI64 bits width => exact some_canonical (llgGmpSv4Cast_canonical (g4Small_ok le_rfl ..) width true)
  | fromMasks => exact llgGmpSv4FromMasks_canonical _ _ _ _ _
  | fromLimbs => exact llgGmpSv4FromLimbs_canonical _ _ _ _ _
  | fromReal => exact some_canonical (llgGmpSv4FromReal_canonical ..)
  | rtoi => exact some_canonical (llgGmpSv4Rtoi_canonical ..)
  | realtobits => exact some_canonical (g4Small_ok le_rfl ..)
  | shortrealtobits => exact some_canonical (g4Small_ok (by decide) ..)
  | resize => exact some_canonical (convert_yields (first rfl) ..).canonical
  | cast => exact some_canonical (llgGmpSv4Cast_canonical (first rfl) ..)
  | toTwoState => exact some_canonical (llgGmpSv4ToTwoState_canonical (first rfl))
  | copy => exact some_canonical (llgGmpSv4Copy_canonical (second rfl))
  | setSigned => exact some_canonical ((first rfl).withSign ..)
  | binary => exact some_canonical (g4Binary_yields (first rfl) (second rfl) ..).canonical
  | binaryInto =>
    exact some_canonical (g4BinaryInto_yields (first rfl) (second rfl) (third rfl) hallowed ..).canonical
  | divmod => exact some_canonical (g4Divmod_canonical (first rfl) (second rfl) ..)
  | pow => exact some_canonical (llgGmpSv4Pow_canonical (first rfl) (second rfl))
  | neg => exact some_canonical (llgGmpSv4Neg_yields (first rfl)).canonical
  | bitneg => exact some_canonical (llgGmpSv4Bitneg_yields (first rfl)).canonical
  | lognot | logand | logor | logimpl | logequiv => exact some_canonical (g4Predicate_canonical _)
  | compare => exact some_canonical (g4Compare_canonical (first rfl) (second rfl) ..)
  | matchMode => exact some_canonical (g4Match_canonical ..)
  | insideRange => exact some_canonical (g4Predicate_canonical ..)
  | mux => exact some_canonical (llgGmpSv4Mux_yields (first rfl) (second rfl) (third rfl)).canonical
  | shift v count right arithmetic =>
    have hcounts : Counts v count (if 2 ^ 64 ≤ count.aNat then v.width else count.aNat) :=
      fun _ => ⟨fun h => if_neg (Nat.not_le.2 h), fun h => (if_pos h).ge⟩
    exact some_canonical (g4Shift_yields (first rfl) (second rfl) hcounts right arithmetic).canonical
  | reduce => exact some_canonical (g4Reduce_yields (first rfl) ..).canonical
  | clog2 => exact some_canonical (llgGmpSv4Clog2_canonical ..)
  | countones => exact some_canonical (llgGmpSv4Countones_canonical ..)
  | onehot => exact some_canonical (llgGmpSv4Onehot_canonical ..)
  | bitSelect => exact some_canonical (g4Small_ok (by decide) ..)
  | partSelect => exact Selection.read_canonical (.part ..) (first rfl) trivial
  | idxPartSelect => exact Selection.read_canonical (.indexed ..) (first rfl) trivial
  | idxPartSelectValue => exact Selection.read_canonical (.indexedValue ..) (first rfl) (second rfl)
  | selectPlanRead => exact llgGmpSv4SelectPlanRead_canonical _ _
  | selectPlanSlice v plan reverse =>
    exact llgGmpSv4SelectPlanSlice_canonical
      (fun left right => Selection.read_canonical (.part left right) (first rfl) trivial) plan reverse
  | setVpiWord => exact some_canonical (llgGmpSv4SetVpiWord_canonical (first rfl) ..)
  | setWord => exact some_canonical (llgGmpSv4SetVpiWord_canonical (first rfl) ..)
  | setState => exact llgGmpSv4SetState_canonical (first rfl) _ _
  | bitSelectSet => exact Selection.write_canonical (.bit ..) (first rfl) (second rfl) trivial
  | partSelectSet => exact Selection.write_canonical (.part ..) (first rfl) (second rfl) trivial
  | idxPartSelectSet =>
    exact Selection.write_canonical (.indexed ..) (first rfl) (second rfl) trivial
  | idxPartSelectSetValue =>
    exact Selection.write_canonical (.indexedValue ..) (first rfl) (third rfl) (second rfl)
  | selectPlanSet => exact llgGmpSv4SelectPlanSet_canonical (first rfl) _ _
  | maskedWrite => exact some_canonical (maskedWrite_canonical (first rfl) ..)
  | rangeCopy => exact some_canonical (llgGmpSv4RangeCopy_canonical (first rfl) hallowed ..)
  | rangeFill => exact some_canonical (llgGmpSv4RangeFill_canonical (first rfl) ..)
  | maskRemove => exact some_canonical (llgGmpSv4MaskRemove_canonical (first rfl) ..)
  | maskTop => exact some_canonical (llgGmpSv4MaskTop_canonical (first rfl))
  | mulAddKnown => exact some_canonical (llgGmpSv4MulAddKnown_canonical (first rfl) ..)
  | negateKnown => exact some_canonical (llgGmpSv4NegateKnown_canonical (first rfl))
  | twoStateInplace => exact some_canonical (llgGmpSv4TwoStateInplace_canonical (first rfl))
  | appendDigit => exact some_canonical (llgGmpSv4AppendDigit_canonical (first rfl) ..)
  | concat => exact llgGmpSv4Concat_canonical (first rfl) (second rfl)
  | replicate => exact llgGmpSv4Repeat_canonical (first rfl) _
  | repeatCount => exact some_canonical (llgGmpSv4RepeatCount_canonical (first rfl))
  | stream => exact llgGmpSv4Stream_canonical (first rfl) _ _
  | arrayConditionalMerge =>
    exact llgGmpSv4ArrayConditionalMerge_canonical (first rfl) (second rfl) (third rfl)
  | recordConditionalMerge => exact llgGmpSv4RecordConditionalMerge_canonical _ _ _ _
  | importVpiWords => exact some_canonical (llgGmpSv4ImportVpiWords_canonical (first rfl) ..)
  | importWords => exact some_canonical (llgGmpSv4ImportWords_canonical (first rfl) ..)
  | importVpi32 => exact some_canonical (llgGmpSv4ImportVpi32_canonical (first rfl) ..)
  | resolve | resolveStrengths => exact resolve_canonical _ _ _ _ _ _ _
  | resolveStrengthsRange => exact llgGmpSv4ResolveStrengthsRange_canonical _ _ _ _ _ _ _ _ _
  | enumNavigate current step values defaultValue direction =>
    exact some_canonical (llgGmpSv4EnumNavigate_canonical current step (fun v hv => hin v
      (mem_cons_of_mem _ (mem_cons_of_mem _ (mem_cons_of_mem _ hv)))) (third rfl) direction)
  | udpEval => exact llgGmpSv4UdpEval_canonical _ _

/-! ## Programs -/

/-- The values that a program can build: each is the result of an operation on values built before. -/
inductive Produced : G4 → Prop where
  | step (op : Operation) (hallowed : op.Allowed) (hin : ∀ v ∈ op.inputs, Produced v) (out : G4)
      (hout : out ∈ op.run) : Produced out

lemma Produced.canonical {v : G4} (h : Produced v) : v.Canonical := by
  induction h with
  | step op hallowed _ out hout ih => exact op.run_canonical hallowed ih out hout

/-! ## Equality of words -/

/-- The first words of the planes `b` are the same; a plane that is missing is zero. -/
def sameUnknown (n : ℕ) : Option Words → Option Words → Bool
  | some ab, some bb => (List.range n).all fun i => ab.getD i 0 = bb.getD i 0
  | some ab, none => (List.range n).all fun i => ab.getD i 0 = 0
  | none, some bb => (List.range n).all fun i => bb.getD i 0 = 0
  | none, none => true

/-- `llg_gmp_sv4_same_wide`. -/
def llgGmpSv4SameWide (a b : G4) : Bool :=
  let an := g4Words a.width
  let bn := g4Words b.width
  let n := min an bn
  let common := (List.range n).all fun i => a.a.getD i 0 = b.a.getD i 0
  let rest := fun (v : G4) (m : ℕ) =>
    (List.range m).all fun i => i < n ∨ v.a.getD i 0 = 0 ∧ v.wordsB.getD i 0 = 0
  common && sameUnknown n a.b b.b && rest a an && rest b bn

/-- `llg_gmp_sv4_same`. -/
def llgGmpSv4Same (a b : G4) : Bool :=
  if g4Maxw a b ≤ 64 then a.smallA = b.smallA ∧ a.smallB = b.smallB else llgGmpSv4SameWide a b

/-- `llg_gmp_sv4_to_bool` of `llg_gmp_sv4_case_eq`. -/
def caseEqual (a b : G4) : Bool := g4Truth (g4Compare a b .caseEq) = 1

section Equality

variable {a b : G4}

/-- The words of equal numbers are equal, if missing words count as zero. -/
lemma wordsNat_eq_iff_getD {xs ys : Words} : wordsNat xs = wordsNat ys ↔ ∀ i, xs.getD i 0 = ys.getD i 0 := by
  constructor
  · intro h i
    refine BitVec.eq_of_getLsbD_eq fun k hk => ?_
    rw [getLsbD_getD xs hk rfl, getLsbD_getD ys hk rfl, h]
  · intro h
    refine Nat.eq_of_testBit_eq fun i => ?_
    rw [testBit_wordsNat, testBit_wordsNat, h]

/-- A canonical plane has no words behind those of the width. -/
lemma getD_of_holds {w x : ℕ} {ws : Words} (h : Holds w ws x) {i : ℕ} (hi : g4Words w ≤ i) : ws.getD i 0 = 0 := by
  refine BitVec.eq_of_getLsbD_eq fun k hk => ?_
  rw [g4Words] at hi
  rw [getLsbD_getD ws hk rfl, h.value, testBit_beyond h.lt (by omega)]
  simp

lemma G4.Canonical.holds_wordsB {v : G4} (h : v.Canonical) {i : ℕ} (hi : g4Words v.width ≤ i) :
    v.wordsB.getD i 0 = 0 := by
  rw [G4.wordsB]
  cases hb : v.b with
  | none => rfl
  | some b => exact getD_of_holds (h.holds_b b hb) hi

lemma sameUnknown_iff (n : ℕ) :
    sameUnknown n a.b b.b = true ↔ ∀ i < n, a.wordsB.getD i 0 = b.wordsB.getD i 0 := by
  rw [G4.wordsB, G4.wordsB]
  cases a.b <;> cases b.b <;> simp [sameUnknown, @eq_comm _ 0#64]

lemma llgGmpSv4SameWide_iff (ha : a.Canonical) (hb : b.Canonical) :
    llgGmpSv4SameWide a b = true ↔ a.aNat = b.aNat ∧ a.bNat = b.bNat := by
  rw [G4.aNat, G4.aNat, bNat_eq_wordsNat, bNat_eq_wordsNat, wordsNat_eq_iff_getD, wordsNat_eq_iff_getD]
  simp only [llgGmpSv4SameWide, Bool.and_eq_true, sameUnknown_iff, all_eq_true, mem_range,
    decide_eq_true_eq]
  have hzero : ∀ {v : G4}, v.Canonical → ∀ {i}, g4Words v.width ≤ i → v.a.getD i 0 = 0 ∧ v.wordsB.getD i 0 = 0 :=
    fun hv _ hi => ⟨getD_of_holds hv.holds_a hi, hv.holds_wordsB hi⟩
  constructor
  · rintro ⟨⟨⟨hA, hB⟩, hrestA⟩, hrestB⟩
    have hall : ∀ i, a.a.getD i 0 = b.a.getD i 0 ∧ a.wordsB.getD i 0 = b.wordsB.getD i 0 := by
      intro i
      by_cases hi : i < min (g4Words a.width) (g4Words b.width)
      · exact ⟨hA i hi, hB i hi⟩
      · -- Behind the common words all words are zero, those of the width or missing ones.
        have hrest : ∀ {v : G4}, v.Canonical →
            (∀ j < g4Words v.width, j < min (g4Words a.width) (g4Words b.width) ∨
              v.a.getD j 0 = 0 ∧ v.wordsB.getD j 0 = 0) → v.a.getD i 0 = 0 ∧ v.wordsB.getD i 0 = 0 := by
          intro v hv hwords
          by_cases hlt : i < g4Words v.width
          · exact (hwords i hlt).resolve_left hi
          · exact hzero hv (not_lt.1 hlt)
        obtain ⟨hxA, hxB⟩ := hrest ha hrestA
        obtain ⟨hyA, hyB⟩ := hrest hb hrestB
        exact ⟨hxA.trans hyA.symm, hxB.trans hyB.symm⟩
    exact ⟨fun i => (hall i).1, fun i => (hall i).2⟩
  · rintro ⟨hA, hB⟩
    refine ⟨⟨⟨fun i _ => hA i, fun i _ => hB i⟩, fun i hi => ?_⟩, fun i hi => ?_⟩
    · by_cases hlt : i < min (g4Words a.width) (g4Words b.width)
      · exact .inl hlt
      · rw [hA i, hB i]
        exact .inr (hzero hb (by omega))
    · by_cases hlt : i < min (g4Words a.width) (g4Words b.width)
      · exact .inl hlt
      · rw [← hA i, ← hB i]
        exact .inr (hzero ha (by omega))

/-- `llg_gmp_sv4_same` compares the numbers in the planes. -/
lemma llgGmpSv4Same_iff (ha : a.Canonical) (hb : b.Canonical) :
    llgGmpSv4Same a b = true ↔ a.aNat = b.aNat ∧ a.bNat = b.bNat := by
  rw [llgGmpSv4Same]
  split_ifs with hw
  · have hwidth : a.width ≤ 64 ∧ b.width ≤ 64 := by
      rw [g4Maxw_eq] at hw
      omega
    rw [decide_eq_true_iff, BitVec.toNat_eq, BitVec.toNat_eq, ha.toNat_smallA hwidth.1, hb.toNat_smallA hwidth.2,
      ha.toNat_smallB hwidth.1, hb.toNat_smallB hwidth.2]
  · exact llgGmpSv4SameWide_iff ha hb

/-- Two canonical values with the same width and the same planes have the same words. -/
lemma words_eq_iff_of_width (ha : a.Canonical) (hb : b.Canonical) (hwidth : a.width = b.width) :
    a.a = b.a ∧ a.b = b.b ↔ a.aNat = b.aNat ∧ a.bNat = b.bNat := by
  rcases Nat.lt_or_ge 64 a.width with hw | hw
  · exact words_eq_iff ha hb hw hwidth
  obtain ⟨x, hx⟩ := Option.isSome_iff_exists.1 (ha.isSome_b.2 (.inl hw))
  obtain ⟨y, hy⟩ := Option.isSome_iff_exists.1 (hb.isSome_b.2 (.inl (hwidth ▸ hw)))
  constructor
  · rintro ⟨hA, hB⟩
    exact ⟨by rw [G4.aNat, hA, G4.aNat], by rw [G4.bNat, hB, G4.bNat]⟩
  · rintro ⟨hA, hB⟩
    have hholdsA := hb.holds_a
    have hholdsB := hb.holds_b y hy
    rw [← hwidth, ← hA] at hholdsA
    rw [← hwidth, ← hB] at hholdsB
    exact ⟨ha.holds_a.unique hholdsA, by rw [hx, hy, (ha.holds_b x hx).unique hholdsB]⟩

/-- Case equality compares the operands with the width and the sign that they have in common. -/
lemma caseEqual_iff_ext (ha : a.Canonical) (hb : b.Canonical) :
    caseEqual a b = true ↔
      a.extA (g4Maxw a b) (a.isSigned && b.isSigned) = b.extA (g4Maxw a b) (a.isSigned && b.isSigned) ∧
      a.extB (g4Maxw a b) (a.isSigned && b.isSigned) = b.extB (g4Maxw a b) (a.isSigned && b.isSigned) := by
  have htruth : ∀ p : Prop, [Decidable p] → (g4Truth (g4Predicate (if p then 1 else 0)) = 1 ↔ p) := by
    intro p _
    by_cases hp : p
    · simp only [hp, iff_true]
      decide +kernel
    · simp only [hp, iff_false]
      decide +kernel
  rw [caseEqual, decide_eq_true_iff, g4Compare_caseEq ha hb, htruth]

/-- The planes of a converted value. -/
lemma convert_planes {v : G4} (h : v.Canonical) (w : ℕ) (s : Bool) :
    (v.convert w s s).aNat = v.extA w s ∧ (v.convert w s s).bNat = v.extB w s := by
  have hyields := convert_yields h w s s
  have hbits : ∀ i < w, (v.convert w s s).aNat.testBit i = (v.extA w s).testBit i ∧
      (v.convert w s s).bNat.testBit i = (v.extB w s).testBit i := by
    intro i hi
    have hstate := hyields.stateAt i hi
    rw [← stateBit_ext s h hi, G4.stateAt, stateBit_inj] at hstate
    exact hstate
  have hA := hyields.canonical.aNat_lt
  have hB := hyields.canonical.bNat_lt
  rw [hyields.width] at hA hB
  exact ⟨(eq_iff_testBit hA (extA_lt v w s)).2 fun i hi => (hbits i hi).1,
    (eq_iff_testBit hB (extB_lt v w s)).2 fun i hi => (hbits i hi).2⟩

/-- Case equality is equality of the words of the extended operands. -/
lemma caseEqual_iff_same_convert (ha : a.Canonical) (hb : b.Canonical) :
    caseEqual a b = llgGmpSv4Same (a.convert (g4Maxw a b) (a.isSigned && b.isSigned) (a.isSigned && b.isSigned))
      (b.convert (g4Maxw a b) (a.isSigned && b.isSigned) (a.isSigned && b.isSigned)) := by
  rw [Bool.eq_iff_iff, caseEqual_iff_ext ha hb, llgGmpSv4Same_iff (convert_yields ha ..).canonical
    (convert_yields hb ..).canonical]
  obtain ⟨hxA, hxB⟩ := convert_planes ha (g4Maxw a b) (a.isSigned && b.isSigned)
  obtain ⟨hyA, hyB⟩ := convert_planes hb (g4Maxw a b) (a.isSigned && b.isSigned)
  rw [hxA, hxB, hyA, hyB]

/-- Without an extension by a sign, case equality is equality of the words. -/
lemma caseEqual_iff_same (ha : a.Canonical) (hb : b.Canonical)
    (h : a.width = b.width ∨ (a.isSigned && b.isSigned) = false) : caseEqual a b = llgGmpSv4Same a b := by
  rw [Bool.eq_iff_iff, caseEqual_iff_ext ha hb, llgGmpSv4Same_iff ha hb]
  rcases h with hwidth | hsign
  · exact ext_eq_iff_of_width ha hb hwidth _
  · have hext : ∀ {v : G4}, v.Canonical → v.width ≤ g4Maxw a b →
        v.extA (g4Maxw a b) false = v.aNat ∧ v.extB (g4Maxw a b) false = v.bNat := by
      intro v hv hle
      have hpow := Nat.pow_le_pow_right (show 0 < 2 by decide) hle
      exact ⟨Nat.mod_eq_of_lt (hv.aNat_lt.trans_le hpow), Nat.mod_eq_of_lt (hv.bNat_lt.trans_le hpow)⟩
    obtain ⟨hxA, hxB⟩ := hext ha (by rw [g4Maxw_eq]; exact le_max_left ..)
    obtain ⟨hyA, hyB⟩ := hext hb (by rw [g4Maxw_eq]; exact le_max_right ..)
    rw [hsign, hxA, hxB, hyA, hyB]

end Equality

/-- **Every value is canonical.**  Each operation of the backend returns a canonical value for canonical
operands, so that all values of a program are canonical.  Two canonical values are case-equal exactly if their
words are the same after the extension to their common width, and for values of one width exactly if the arrays
of words are the same. -/
theorem operations_canonical :
    (∀ op : Operation, op.Allowed → (∀ v ∈ op.inputs, v.Canonical) → ∀ out ∈ op.run, out.Canonical) ∧
    (∀ v, Produced v → v.Canonical) ∧
    (∀ a b : G4, a.Canonical → b.Canonical →
      (let w := g4Maxw a b
       let s := a.isSigned && b.isSigned
       caseEqual a b = llgGmpSv4Same (a.convert w s s) (b.convert w s s)) ∧
      (a.width = b.width ∨ (a.isSigned && b.isSigned) = false → caseEqual a b = llgGmpSv4Same a b) ∧
      (a.width = b.width → (caseEqual a b = true ↔ a.a = b.a ∧ a.b = b.b))) := by
  refine ⟨fun op => op.run_canonical, fun v => Produced.canonical, fun a b ha hb =>
    ⟨caseEqual_iff_same_convert ha hb, caseEqual_iff_same ha hb, fun hwidth => ?_⟩⟩
  rw [caseEqual_iff_same ha hb (.inl hwidth), llgGmpSv4Same_iff ha hb, words_eq_iff_of_width ha hb hwidth]

/-- A concatenation of a wide value and a narrow one that is unknown, and the stream of its slices. -/
theorem operations_canonical_stream :
    ∃ v ∈ llgGmpSv4Concat minWide (llgGmpSv4X 3 false), v.Canonical ∧
      ∃ out ∈ llgGmpSv4Stream v 5 true, out.Canonical := by
  have hsome : ((llgGmpSv4Concat minWide (llgGmpSv4X 3 false)).bind (llgGmpSv4Stream · 5 true)).isSome := by
    decide +kernel
  obtain ⟨out, hbind⟩ := Option.isSome_iff_exists.1 hsome
  obtain ⟨v, hv, hout⟩ := Option.bind_eq_some_iff.1 hbind
  have hcanonical : v.Canonical := by
    refine operations_canonical.1 (.concat minWide (llgGmpSv4X 3 false)) trivial ?_ v hv
    rintro _ (_ | ⟨_, _ | ⟨_, ⟨⟩⟩⟩)
    · exact minWide_canonical
    · exact llgGmpSv4X_canonical 3 false
  refine ⟨v, hv, hcanonical, out, hout, operations_canonical.1 (.stream v 5 true) trivial ?_ out hout⟩
  rintro _ (_ | ⟨_, ⟨⟩⟩)
  exact hcanonical

/-- A signed minus one in three bits and one in five bits are produced and case-equal, but their words differ:
the narrow one is extended by its sign before the comparison. -/
theorem caseEqual_words_differ :
    let a := llgGmpSv4FromU64 7 3 true
    let b := llgGmpSv4FromU64 31 5 true
    Produced a ∧ Produced b ∧ a.Canonical ∧ b.Canonical ∧ caseEqual a b = true ∧ a.a ≠ b.a ∧
      llgGmpSv4Same a b = false := by
  have hproduced : ∀ (bits : BitVec 64) (w : ℕ), Produced (llgGmpSv4FromU64 bits w true) :=
    fun bits w => .step (.fromU64 bits w true) trivial (by rintro _ ⟨⟩) _ rfl
  exact ⟨hproduced 7 3, hproduced 31 5, llgGmpSv4FromU64_canonical .., llgGmpSv4FromU64_canonical ..,
    by decide +kernel, by decide +kernel, by decide +kernel⟩

end Lapligence.Value
