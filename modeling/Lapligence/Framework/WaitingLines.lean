import Mathlib.Data.List.Nodup
import Mathlib.Data.List.Pairwise

/-!
# Waiting lines

Two facts about queues of waiting clients that a scheduler keeps.

`WaitingLine came served line next` is about *order*.  Clients draw increasing tickets, join the line
at its end, are served at its head, and may leave it anywhere.  Then the tickets served so far are in
order of arrival, nobody in the line arrived before somebody who has been served, and only those who
came and did not leave are served.

`Linked wait place line` is about *membership*.  Each client records the place where it waits, and
each place has a line; the line of a place holds exactly the clients that wait there, each once.
-/

namespace Lapligence

open List

universe u

/-- The tickets of all who came, those served so far in the order of service, the tickets in the line,
and the next ticket. -/
structure WaitingLine (came served line : List ℕ) (next : ℕ) : Prop where
  came_sorted : came.Pairwise (· < ·)
  served_sorted : served.Pairwise (· < ·)
  line_sorted : line.Pairwise (· < ·)
  served_lt : ∀ a ∈ served, ∀ b ∈ line, a < b
  came_fresh : ∀ a ∈ came, a < next
  served_came : ∀ a ∈ served, a ∈ came
  line_came : ∀ b ∈ line, b ∈ came

namespace WaitingLine

variable {came came' served served' line line' : List ℕ} {next next' ticket : ℕ}

lemma nil (next : ℕ) : WaitingLine [] [] [] next :=
  ⟨.nil, .nil, .nil, nofun, nofun, nofun, nofun⟩

/-- A ticket that is later than all others. -/
lemma pairwise_snoc {l : List ℕ} (h : l.Pairwise (· < ·)) (hlt : ∀ a ∈ l, a < ticket) :
    (l ++ [ticket]).Pairwise (· < ·) := by
  refine pairwise_append.2 ⟨h, pairwise_singleton _ _, fun a ha b hb => ?_⟩
  rw [mem_singleton.1 hb]
  exact hlt a ha

lemma line_fresh (h : WaitingLine came served line next) : ∀ b ∈ line, b < next :=
  fun b hb => h.came_fresh b (h.line_came b hb)

/-- Tickets may be drawn for something else. -/
lemma mono (h : WaitingLine came served line next) (hle : next ≤ next') :
    WaitingLine came served line next' :=
  { h with came_fresh := fun a ha => Nat.lt_of_lt_of_le (h.came_fresh a ha) hle }

/-- A client joins. -/
lemma arrive (h : WaitingLine came served line next) (hticket : next ≤ ticket)
    (hnext : ticket < next') : WaitingLine (came ++ [ticket]) served (line ++ [ticket]) next' := by
  have hlt : ∀ a ∈ came, a < ticket := fun a ha => Nat.lt_of_lt_of_le (h.came_fresh a ha) hticket
  have hsnoc : ∀ {l : List ℕ} {b : ℕ}, b ∈ l ++ [ticket] → b ∈ l ∨ b = ticket := by simp
  refine ⟨pairwise_snoc h.came_sorted hlt, h.served_sorted,
    pairwise_snoc h.line_sorted fun a ha => hlt a (h.line_came a ha), fun a ha b hb => ?_,
    fun a ha => ?_, fun a ha => mem_append_left _ (h.served_came a ha), fun b hb => ?_⟩
  · rcases hsnoc hb with hb | rfl
    · exact h.served_lt a ha b hb
    · exact hlt a (h.served_came a ha)
  · rcases hsnoc ha with ha | rfl
    · exact Nat.lt_trans (hlt a ha) hnext
    · exact hnext
  · rcases hsnoc hb with hb | rfl
    · exact mem_append_left _ (h.line_came b hb)
    · exact mem_append_right _ (mem_singleton_self b)

/-- The head is served. -/
lemma serve (h : WaitingLine came served (ticket :: line) next) :
    WaitingLine came (served ++ [ticket]) line next := by
  obtain ⟨hhead, hline⟩ := pairwise_cons.1 h.line_sorted
  have hserved : ∀ a ∈ served ++ [ticket], a ∈ served ∨ a = ticket := by simp
  refine ⟨h.came_sorted, pairwise_snoc h.served_sorted fun a ha => h.served_lt a ha ticket mem_cons_self,
    hline, fun a ha b hb => ?_, h.came_fresh, fun a ha => ?_,
    fun b hb => h.line_came b (mem_cons_of_mem _ hb)⟩
  · rcases hserved a ha with ha | rfl
    · exact h.served_lt a ha b (mem_cons_of_mem _ hb)
    · exact hhead b hb
  · rcases hserved a ha with ha | rfl
    · exact h.served_came a ha
    · exact h.line_came a mem_cons_self

/-- Clients leave. -/
lemma leave (h : WaitingLine came served line next) (hsub : line'.Sublist line) :
    WaitingLine came served line' next :=
  { h with
    line_sorted := h.line_sorted.sublist hsub
    served_lt := fun a ha b hb => h.served_lt a ha b (hsub.subset hb)
    line_came := fun b hb => h.line_came b (hsub.subset hb) }

/-- The line seen from now on. -/
lemma restart (h : WaitingLine came served line next) : WaitingLine line [] line next :=
  ⟨h.line_sorted, .nil, h.line_sorted, nofun, h.line_fresh, nofun, fun _ hb => hb⟩

/-- A client that has left the line is never served: `line'` is the line it left behind, from which
the rest is seen. -/
lemma not_served {between rest : List ℕ} (h : WaitingLine came served line next)
    (hsorted : (came ++ between ++ came').Pairwise (· < ·))
    (hrest : WaitingLine (line' ++ came') served' rest next') (hticket : ticket ∈ line)
    (hleft : ticket ∉ line') : ticket ∉ served ++ served' := by
  intro hserved
  rcases mem_append.1 hserved with hold | hnew
  · exact Nat.lt_irrefl _ (h.served_lt _ hold _ hticket)
  · have hlater := (mem_append.1 (hrest.served_came _ hnew)).resolve_left hleft
    have hcame := mem_append_left between (h.line_came _ hticket)
    exact Nat.lt_irrefl _ ((pairwise_append.1 hsorted).2.2 _ hcame _ hlater)

end WaitingLine

/-- The line of a place holds exactly the clients that wait there, each once. -/
structure Linked {κ : Type u} (wait : ℕ → Option κ) (place : κ) (line : List ℕ) : Prop where
  nodup : line.Nodup
  mem_iff : ∀ client, client ∈ line ↔ wait client = some place

namespace Linked

variable {κ : Type u} {wait : ℕ → Option κ} {place place' : κ} {line : List ℕ} {client : ℕ}

/-- A client that waits nowhere joins. -/
lemma join (h : Linked wait place line) (hnone : wait client = none) :
    Linked (Function.update wait client (some place)) place (line ++ [client]) := by
  have hnot : client ∉ line := fun hmem => by simp [(h.mem_iff client).1 hmem] at hnone
  refine ⟨?_, fun c => ?_⟩
  · rw [nodup_append]
    exact ⟨h.nodup, nodup_singleton _, fun a ha b hb hab =>
      hnot (mem_singleton.1 hb ▸ hab ▸ ha)⟩
  · by_cases hc : c = client
    · subst hc
      simp
    · simp [hc, h.mem_iff]

/-- A client joins another line. -/
lemma join_other (h : Linked wait place line) (hnone : wait client = none) (hne : place' ≠ place) :
    Linked (Function.update wait client (some place')) place line := by
  refine ⟨h.nodup, fun c => ?_⟩
  by_cases hc : c = client
  · subst hc
    simp [h.mem_iff, hnone, hne]
  · simp [Function.update_of_ne hc, h.mem_iff]

/-- A client leaves its line. -/
lemma leave (h : Linked wait place line) (client : ℕ) :
    Linked (Function.update wait client none) place (line.erase client) := by
  refine ⟨h.nodup.erase client, fun c => ?_⟩
  rw [h.nodup.mem_erase_iff, h.mem_iff]
  by_cases hc : c = client
  · subst hc
    simp
  · simp [hc]

/-- A client leaves another line. -/
lemma leave_other (h : Linked wait place line) (hwait : wait client ≠ some place) :
    Linked (Function.update wait client none) place line := by
  have hnot : client ∉ line := fun hmem => hwait ((h.mem_iff client).1 hmem)
  have := h.leave client
  rwa [erase_of_not_mem hnot] at this

end Linked

end Lapligence
