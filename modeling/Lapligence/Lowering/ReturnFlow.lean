import Mathlib.Data.Bool.Basic
import Mathlib.Tactic.Common

/-!
# Definite assignment of a function's result

`return_flow.rs`: the analysis that says whether a function establishes its result.  `Runs` is what it is
about: the finite executions of a statement, with the way each ends and whether it has established the result.
Conditions are not evaluated in it and can go either way.

`statement_covers` says that the flow of a statement accounts for each of its executions.
-/

namespace Lapligence.Lowering

open Bool

/-! ## The model -/

inductive JumpKind where
  | breaks | continues
deriving DecidableEq

/-- `Jump`: a break or a continue, with the node of its loop. -/
abbrev Jump := JumpKind × ℕ

/-- `Flow`.  In each place `none` is unreachable, and `some false` is reached without a whole-result write.
The map of the jumps is kept as its insertions: an entry holds the conjunction of what is inserted. -/
structure Flow where
  next : Option Bool := none
  returns : Option Bool := none
  jumps : List (Jump × Bool) := []
  unknown : Bool := false

def meet : Option Bool → Option Bool → Option Bool
  | some left, some right => some (left && right)
  | some value, none | none, some value => some value
  | none, none => none

namespace Flow

def falls (assigned : Bool) : Flow := { next := some assigned }

/-- The entry of a jump. -/
def entry (self : Flow) (target : Jump) : Option Bool :=
  if self.jumps.any (·.1 = target) then some (self.jumps.all fun (key, assigned) => key ≠ target || assigned)
  else none

def merge (self other : Flow) : Flow where
  next := meet self.next other.next
  returns := meet self.returns other.returns
  jumps := self.jumps ++ other.jumps
  unknown := self.unknown || other.unknown

def jump : Option Jump → Bool → Flow
  | some target, assigned => { jumps := [(target, assigned)] }
  | none, _ => { unknown := true }

def exitLoop (self : Flow) (node : ℕ) (entry : Option Bool) (postTest : Bool) : Flow :=
  let breaks := self.entry (.breaks, node)
  let continues := self.entry (.continues, node)
  -- a do-loop can exit after its first body or continue path; a loop that tests first may skip the body
  let conditionExit := if postTest then meet self.next continues else entry
  { self with next := meet conditionExit breaks, jumps := self.jumps.filter fun jump => jump.1.2 ≠ node }

end Flow

/-- The loops: `While`, `Repeat`, `For` and `Foreach` test first. -/
inductive LoopKind where
  | preTest | postTest | forever
deriving DecidableEq

/-- The nodes that the analysis tells apart.  An assignment expression is a blocking `assign`; `lhs` is the
target of its first operand, if that is a reference with a target.  `choice` has the bodies of a conditional
statement, of which none is run only if it `skips`.  `simple` stands for calls, declarations and other
expressions and for a body that is missing, for which `branch` yields the same, and `other` for the rest. -/
inductive Stmt where
  | block (node : ℕ) (children : List Stmt)
  | assign (blocking assignment delay : Bool) (lhs : Option ℕ)
  | ret (value : Bool)
  | jump (kind : JumpKind)
  | choice (bodies : List Stmt) (skips : Bool)
  | loop (kind : LoopKind) (node : ℕ) (body : Stmt)
  | simple
  | disable (target : ℕ)
  | other

namespace Stmt

def ifElse (ifTrue ifFalse : Stmt) : Stmt := choice [ifTrue, ifFalse] false

/-- A case statement skips if there is no default among its items. -/
def case (items : List Stmt) (default : Bool) : Stmt := choice items !default

/-- All weights can be zero. -/
def randCase (items : List Stmt) : Stmt := choice items true

def patternCase (items : List Stmt) (default : Stmt) : Stmt := choice (default :: items) false

end Stmt

/-- `assigned_lhs`: the left side is the function's own name. -/
def assignedLhs (canonical : ℕ → Option ℕ) (function : ℕ) (lhs : Option ℕ) : Bool :=
  lhs.any fun target => (canonical target).getD target = function

section Function

-- `assigned_lhs` of the function
variable (own : Option ℕ → Bool)

mutual

def statement : Stmt → Bool → Option ℕ → Flow
  | .block _ children, input, loopTarget => sequence children loopTarget (.falls input)
  | .assign blocking assignment delay lhs, input, _ =>
    if delay then { unknown := true } else .falls (input || (blocking && assignment && own lhs))
  | .ret value, input, _ => { returns := some (value || input) }
  | .jump kind, input, loopTarget => .jump (loopTarget.map (kind, ·)) input
  | .choice bodies skips, input, loopTarget =>
    branches bodies input loopTarget (if skips then .falls input else {})
  | .loop kind node body, input, _ =>
    (statement body input (some node)).exitLoop node (if kind = .preTest then some input else none)
      (kind = .postTest)
  | .simple, input, _ => .falls input
  | .disable _, _, _ | .other, _, _ => { unknown := true }

/-- The loop of `sequence`: what has left so far bypasses the following statements. -/
def sequence : List Stmt → Option ℕ → Flow → Flow
  | [], _, flow => flow
  | node :: rest, loopTarget, flow =>
    match flow.next with
    | none => flow
    | some assigned =>
      sequence rest loopTarget ({ flow with next := none }.merge (statement node assigned loopTarget))

/-- The loops over the bodies of a conditional statement. -/
def branches : List Stmt → Bool → Option ℕ → Flow → Flow
  | [], _, _, flow => flow
  | body :: rest, input, loopTarget, flow =>
    branches rest input loopTarget (flow.merge (statement body input loopTarget))

end

/-- `function_establishes_return_on_every_path`. -/
def functionEstablishesReturnOnEveryPath (root : Stmt) : Bool :=
  let flow := statement own root false none
  !flow.unknown && flow.jumps.isEmpty && flow.next.getD true && flow.returns.getD true

/-! ## Executions -/

/-- How an execution of a statement ends. -/
inductive Exit where
  | next
  | returns
  | jumps (kind : JumpKind)
  | disables (target : ℕ)

/-- Rounds of a loop that are followed by another test or round. -/
inductive Rounds (round : Bool → Prop) : Bool → Prop
  | none : Rounds round false
  | more {w w' : Bool} (h : round w) (rest : Rounds round w') : Rounds round (w || w')

/-- The executions of a loop, from those of its body: some rounds, and how the loop is left. -/
def LoopRuns (kind : LoopKind) (body : Exit → Bool → Prop) (e : Exit) (w : Bool) : Prop :=
  let round w := body .next w ∨ body (.jumps .continues) w
  ∃ before last, Rounds round before ∧ w = (before || last) ∧
    match e with
    | .next => kind = .preTest ∧ last = false ∨ kind = .postTest ∧ round last ∨ body (.jumps .breaks) last
    | .returns | .disables _ => body e last
    | .jumps _ => False

mutual

/-- An execution of the statement ends with `e`, and iff `w` it has assigned the whole result or returned a
value.  Nothing is said about what a `simple` statement writes, and an `other` one can do anything. -/
def Runs : Stmt → Exit → Bool → Prop
  | .block node children, e, w =>
    RunsAll children e w ∧ e ≠ .disables node ∨ e = .next ∧ RunsAll children (.disables node) w
  | .assign blocking assignment delay lhs, e, w =>
    delay = true ∨ e = .next ∧ (blocking = true ∧ assignment = true → w = own lhs)
  | .ret value, e, w => e = .returns ∧ w = value
  | .jump kind, e, w => e = .jumps kind ∧ w = false
  | .choice bodies skips, e, w => RunsAny bodies e w ∨ skips = true ∧ e = .next ∧ w = false
  | .loop kind _ body, e, w => LoopRuns kind (Runs body) e w
  | .simple, e, _ => e = .next
  | .disable target, e, w => e = .disables target ∧ w = false
  | .other, _, _ => True

def RunsAll : List Stmt → Exit → Bool → Prop
  | [], e, w => e = .next ∧ w = false
  | s :: rest, e, w =>
    Runs s e w ∧ e ≠ .next ∨ ∃ w₁ w₂, Runs s .next w₁ ∧ RunsAll rest e w₂ ∧ w = (w₁ || w₂)

def RunsAny : List Stmt → Exit → Bool → Prop
  | [], _, _ => False
  | s :: rest, e, w => Runs s e w ∨ RunsAny rest e w

end

end Function

/-! ## What a flow accounts for -/

/-- The values that a flow has for an exit. -/
def Flow.Reaches (flow : Flow) (loopTarget : Option ℕ) (x : Bool) : Exit → Prop
  | .next => flow.next = some x
  | .returns => flow.returns = some x
  | .jumps kind => ∃ node, loopTarget = some node ∧ ((kind, node), x) ∈ flow.jumps
  | .disables _ => False

/-- The flow accounts for an execution: it reaches the exit, and as established only if it is. -/
def Covers (flow : Flow) (loopTarget : Option ℕ) (e : Exit) (w : Bool) : Prop :=
  flow.unknown = true ∨ ∃ x ≤ w, flow.Reaches loopTarget x e

section Places

variable {p q : Option Bool} {f g : Flow} {loopTarget : Option ℕ} {e : Exit} {w w' x : Bool}

lemma exists_meet (hx : x ≤ w) (h : p = some x ∨ q = some x) : ∃ y ≤ w, meet p q = some y := by
  rcases h with rfl | rfl
  · cases q with
    | none => exact ⟨x, hx, rfl⟩
    | some y => exact ⟨x && y, hx ∘ and_le_left x y, rfl⟩
  · cases p with
    | none => exact ⟨x, hx, rfl⟩
    | some y => exact ⟨y && x, hx ∘ and_le_right y x, rfl⟩

lemma Flow.exists_entry {target : Jump} (h : (target, x) ∈ f.jumps) : ∃ y ≤ x, f.entry target = some y := by
  refine ⟨_, fun hall => ?_, if_pos (List.any_eq_true.2 ⟨_, h, by simp⟩)⟩
  simpa using List.all_eq_true.1 hall _ h

lemma Covers.merge (h : Covers f loopTarget e w ∨ Covers g loopTarget e w) :
    Covers (f.merge g) loopTarget e w := by
  by_cases hunknown : (f.merge g).unknown = true
  · exact .inl hunknown
  obtain ⟨hf, hg⟩ := not_or.1 fun h => hunknown (or_eq_true_iff.2 h)
  obtain ⟨x, hx, h⟩ : ∃ x ≤ w, f.Reaches loopTarget x e ∨ g.Reaches loopTarget x e := by
    rcases h with h | h
    · exact (h.resolve_left hf).imp fun x h => ⟨h.1, .inl h.2⟩
    · exact (h.resolve_left hg).imp fun x h => ⟨h.1, .inr h.2⟩
  refine .inr ?_
  cases e with
  | next | returns => exact exists_meet hx h
  | jumps =>
    refine ⟨x, hx, ?_⟩
    rcases h with ⟨node, hnode, h⟩ | ⟨node, hnode, h⟩
    · exact ⟨node, hnode, List.mem_append_left _ h⟩
    · exact ⟨node, hnode, List.mem_append_right _ h⟩
  | disables => exact h.elim False.elim False.elim

lemma Covers.mono (h : Covers f loopTarget e w) (hw : w ≤ w') : Covers f loopTarget e w' :=
  h.imp_right fun ⟨x, hx, h⟩ => ⟨x, hw ∘ hx, h⟩

end Places

section Function

variable {own : Option ℕ → Bool} {e : Exit} {input w : Bool} {loopTarget : Option ℕ} {flow : Flow}

/-- What has left a sequence so far stays accounted for. -/
lemma Covers.sequence (nodes : List Stmt) (he : e ≠ .next) (h : Covers flow loopTarget e w) :
    Covers (sequence own nodes loopTarget flow) loopTarget e w := by
  induction nodes generalizing flow with
  | nil => rwa [Lowering.sequence]
  | cons node rest ih =>
    rw [Lowering.sequence]
    cases flow.next with
    | none => exact h
    | some =>
      refine ih (.merge (.inl ?_))
      cases e with
      | next => exact absurd rfl he
      | returns | jumps | disables => exact h

lemma Covers.branches (bodies : List Stmt) (h : Covers flow loopTarget e w) :
    Covers (branches own bodies input loopTarget flow) loopTarget e w := by
  induction bodies generalizing flow with
  | nil => rwa [Lowering.branches]
  | cons body rest ih =>
    rw [Lowering.branches]
    exact ih (.merge (.inl h))

/-- Only the last round of a loop counts: what an earlier one has established is not lost. -/
lemma Covers.exitLoop {kind : LoopKind} {node : ℕ} {body : Exit → Bool → Prop}
    (hbody : ∀ e w, body e w → Covers flow (some node) e (input || w)) (h : LoopRuns kind body e w) :
    Covers (flow.exitLoop node (if kind = .preTest then some input else none) (kind = .postTest)) loopTarget e
      (input || w) := by
  by_cases hunknown : flow.unknown = true
  · exact .inl hunknown
  obtain ⟨before, last, -, rfl, h⟩ := h
  have hlast : (input || last) ≤ (input || (before || last)) := by
    cases input <;> cases before <;> simp
  have hreach := fun e h => ((hbody e last h).mono hlast).resolve_left hunknown
  have hjump : ∀ kind, body (.jumps kind) last →
      ∃ y ≤ (input || (before || last)), flow.entry (kind, node) = some y := by
    intro kind h
    obtain ⟨x, hx, _, htarget, hmem⟩ := hreach _ h
    obtain rfl := Option.some.inj htarget
    exact (Flow.exists_entry hmem).imp fun y hy => ⟨hx ∘ hy.1, hy.2⟩
  refine .inr ?_
  cases e with
  | next =>
    rcases h with ⟨rfl, rfl⟩ | ⟨rfl, h | h⟩ | h
    · exact exists_meet (left_le_or _ _) (.inl rfl)
    · obtain ⟨x, hx, h⟩ := hreach .next h
      obtain ⟨y, hy, h⟩ := exists_meet hx (.inl h)
      exact exists_meet hy (.inl h)
    · obtain ⟨x, hx, h⟩ := hjump .continues h
      obtain ⟨y, hy, h⟩ := exists_meet hx (.inr h)
      exact exists_meet hy (.inl h)
    · obtain ⟨x, hx, h⟩ := hjump .breaks h
      exact exists_meet hx (.inr h)
  | returns => exact hreach .returns h
  | jumps => exact absurd h id
  | disables target => exact hreach (.disables target) h

mutual

/-- The flow of a statement accounts for each of its executions. -/
theorem statement_covers (s : Stmt) (input : Bool) (loopTarget : Option ℕ) (e : Exit) (w : Bool)
    (h : Runs own s e w) : Covers (statement own s input loopTarget) loopTarget e (input || w) := by
  cases s with
  | block node children =>
    simp only [Runs, statement] at h ⊢
    have hall := sequence_covers children (.falls input) loopTarget rfl
    rcases h with ⟨h, -⟩ | ⟨rfl, h⟩
    · exact hall e w h
    · -- a disable is not analysed
      exact .inl ((hall _ w h).resolve_right fun h => h.choose_spec.2)
  | assign blocking assignment =>
    simp only [Runs, statement] at h ⊢
    split_ifs with hdelay
    · exact .inl rfl
    · obtain ⟨rfl, h⟩ := h.resolve_left hdelay
      refine .inr ⟨_, ?_, rfl⟩
      cases blocking <;> cases assignment <;> simp_all [left_le_or]
  | ret =>
    obtain ⟨rfl, rfl⟩ := by simpa only [Runs] using h
    exact .inr ⟨_, fun h => or_comm w input ▸ h, rfl⟩
  | jump =>
    obtain ⟨rfl, rfl⟩ := by simpa only [Runs] using h
    cases loopTarget with
    | none => exact .inl rfl
    | some node => exact .inr ⟨input, left_le_or _ _, node, rfl, List.mem_singleton_self _⟩
  | choice bodies =>
    simp only [Runs, statement] at h ⊢
    rcases h with h | ⟨rfl, rfl, rfl⟩
    · exact branches_covers bodies input loopTarget _ e w h
    · exact .branches bodies (.inr ⟨input, left_le_or _ _, rfl⟩)
  | loop kind node body =>
    simp only [Runs, statement] at h ⊢
    exact .exitLoop (statement_covers body input (some node)) h
  | simple =>
    obtain rfl : e = .next := by simpa only [Runs] using h
    exact .inr ⟨input, left_le_or _ _, rfl⟩
  | disable | other => exact .inl rfl

theorem sequence_covers (nodes : List Stmt) {input : Bool} (flow : Flow) (loopTarget : Option ℕ)
    (hnext : flow.next = some input) (e : Exit) (w : Bool) (h : RunsAll own nodes e w) :
    Covers (sequence own nodes loopTarget flow) loopTarget e (input || w) := by
  cases nodes with
  | nil =>
    obtain ⟨rfl, rfl⟩ := by simpa only [RunsAll] using h
    exact .inr ⟨input, left_le_or _ _, by rwa [sequence]⟩
  | cons node rest =>
    rw [sequence, hnext]
    simp only [RunsAll] at h
    rcases h with ⟨h, he⟩ | ⟨w₁, w₂, h₁, h₂, rfl⟩
    · exact .sequence rest he (.merge (.inr (statement_covers node input loopTarget e w h)))
    · have hnode := Covers.merge (f := { flow with next := none })
        (.inr (statement_covers node input loopTarget .next w₁ h₁))
      rcases hnode with hunknown | ⟨x, hx, hnext⟩
      · have hlost : Covers (sequence own rest loopTarget _) loopTarget (.disables 0) w₁ :=
          .sequence rest (by simp) (.inl hunknown)
        exact .inl (hlost.resolve_right fun h => h.choose_spec.2)
      · refine (sequence_covers rest _ loopTarget hnext e w₂ h₂).mono ?_
        rw [← Bool.or_assoc]
        cases w₂ <;> simp_all

theorem branches_covers (bodies : List Stmt) (input : Bool) (loopTarget : Option ℕ) (flow : Flow) (e : Exit)
    (w : Bool) (h : RunsAny own bodies e w) :
    Covers (branches own bodies input loopTarget flow) loopTarget e (input || w) := by
  cases bodies with
  | nil => simp only [RunsAny] at h
  | cons body rest =>
    simp only [RunsAny, branches] at h ⊢
    rcases h with h | h
    · exact .branches rest (.merge (.inr (statement_covers body input loopTarget e w h)))
    · exact branches_covers rest input loopTarget _ e w h

end

/-- If the analysis says that the result is established, every execution that leaves the body has assigned the
whole result or returned a value. -/
theorem establishes_sound {root : Stmt} (h : functionEstablishesReturnOnEveryPath own root = true)
    (hrun : Runs own root e w) : w = true := by
  simp only [functionEstablishesReturnOnEveryPath, and_eq_true, not_eq_true'] at h
  obtain ⟨⟨⟨hknown, -⟩, hnext⟩, hreturns⟩ := h
  obtain ⟨x, hx, hreach⟩ := (statement_covers root false none e w hrun).resolve_left (by simp [hknown])
  refine hx ?_
  cases e with
  | next => rwa [show _ = some x from hreach] at hnext
  | returns => rwa [show _ = some x from hreach] at hreturns
  | jumps =>
    obtain ⟨_, hnode, -⟩ := hreach
    cases hnode
  | disables => exact hreach.elim

end Function

/-- The result is assigned in both branches, in one of them before the only way out of a loop. -/
theorem establishes_sound_forever :
    let own := assignedLhs (fun _ => none) 7
    let body := Stmt.ifElse (.assign true true false (some 7))
      (.loop .forever 1 (.block 2 [.assign true true false (some 7), .jump .breaks]))
    functionEstablishesReturnOnEveryPath own body = true ∧ ∀ e w, Runs own body e w → w = true :=
  ⟨by decide, fun _ _ => establishes_sound (by decide)⟩

end Lapligence.Lowering
