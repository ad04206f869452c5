/-!
# Faults

The ways in which an operation can stop before its end.
-/
namespace Patchbay

/-- Why an operation stopped. -/
inductive Fault where
  /-- A buffer of this many bins would not fit into the address space. -/
  | bufferTooLarge (bins : Nat)
  /-- A block was to be copied onto one of another length. -/
  | unequalBlocks (source target : Nat)
  /-- More frames were asked of a buffer than it has. -/
  | bufferTooShort (frames size : Nat)
  deriving Repr, DecidableEq

/-- Two operations in a row come to their end if the first does and then the second. -/
theorem Fault.bind_ok_iff {α β : Type} {first : Except Fault α} {next : α → Except Fault β}
    {result : β} :
    first >>= next = .ok result ↔ ∃ middle, first = .ok middle ∧ next middle = .ok result := by
  rcases first with fault | middle
  · simp [bind, Except.bind]
  · simp [bind, Except.bind]

theorem Fault.mapM_eq_ok {α β : Type} {f : α → Except Fault β} {g : α → β} {list : List α}
    (each : ∀ a ∈ list, f a = .ok (g a)) : list.mapM f = .ok (list.map g) := by
  induction list with
  | nil => rfl
  | cons a rest ih =>
    rw [List.mapM_cons, each a List.mem_cons_self, ih fun b mem => each b (List.mem_cons_of_mem a mem)]
    rfl

/-- The state an operation reached, with the fault that stopped it there, if one did. -/
structure Attempt (σ : Type) where
  state : σ
  fault : Option Fault

namespace Attempt

/-- An operation that came to its end. -/
def done {σ : Type} (state : σ) : Attempt σ :=
  ⟨state, none⟩

/-- An operation that a fault stopped in this state. -/
def stopped {σ : Type} (state : σ) (fault : Fault) : Attempt σ :=
  ⟨state, some fault⟩

/-- Go on with `next` unless a fault came first. -/
def andThen {σ : Type} (attempt : Attempt σ) (next : σ → Attempt σ) : Attempt σ :=
  match attempt.fault with
  | none => next attempt.state
  | some _ => attempt

/-- Carry the state over into a larger one. -/
def map {σ ρ : Type} (f : σ → ρ) (attempt : Attempt σ) : Attempt ρ :=
  ⟨f attempt.state, attempt.fault⟩

@[simp] theorem done_andThen {σ : Type} (state : σ) (next : σ → Attempt σ) :
    (done state).andThen next = next state := rfl

@[simp] theorem stopped_andThen {σ : Type} (state : σ) (fault : Fault)
    (next : σ → Attempt σ) : (stopped state fault).andThen next = stopped state fault := rfl

/-- Visit a list from left to right, up to the first fault. -/
def visit {σ α : Type} (step : σ → α → Attempt σ) : σ → List α → Attempt σ
  | state, [] => done state
  | state, a :: rest => (step state a).andThen (visit step · rest)

@[simp] theorem visit_nil {σ α : Type} (step : σ → α → Attempt σ) (state : σ) :
    visit step state [] = done state := rfl

@[simp] theorem visit_cons {σ α : Type} (step : σ → α → Attempt σ) (state : σ) (a : α)
    (rest : List α) :
    visit step state (a :: rest) = (step state a).andThen (visit step · rest) := rfl

/-- What every step of a visit keeps holds at its end, also where a fault ends it. -/
theorem visit_keeps {σ α : Type} {step : σ → α → Attempt σ} {P : σ → Prop}
    (keeps : ∀ state a, P state → P (step state a).state) (list : List α) {state : σ}
    (start : P state) : P (visit step state list).state := by
  induction list generalizing state with
  | nil => exact start
  | cons a rest ih =>
    have next := keeps state a start
    rw [visit_cons]
    unfold andThen
    split
    · exact ih next
    · exact next

theorem visit_done {σ α : Type} (step : σ → α → σ) (state : σ) (list : List α) :
    visit (fun state a => done (step state a)) state list = done (list.foldl step state) := by
  induction list generalizing state with
  | nil => rfl
  | cons a rest ih => exact ih (step state a)

open Classical in
/-- Two lists are visited that have the same elements of some kind. Elements of this kind are visited
in both, all others in one of the two. -/
theorem visit_pair {σ ρ α : Type} (step : σ → α → Attempt σ) (step' : ρ → α → Attempt ρ)
    (related : σ → ρ → Prop) {shared : α → Prop}
    (both : ∀ a, shared a → ∀ s r, related s r → ∃ s' r', step s a = .done s' ∧
      step' r a = .done r' ∧ related s' r')
    (left : ∀ a, ¬ shared a → ∀ s r, related s r → ∃ s', step s a = .done s' ∧ related s' r)
    (right : ∀ a, ¬ shared a → ∀ s r, related s r → ∃ r', step' r a = .done r' ∧ related s r')
    {list list' : List α}
    (same : list'.filter (fun a => shared a) = list.filter (fun a => shared a)) {s : σ} {r : ρ}
    (start : related s r) :
    ∃ s' r', visit step s list = .done s' ∧ visit step' r list' = .done r' ∧ related s' r' := by
  induction list generalizing s r list' with
  | nil =>
    -- all that is left stands in the other list alone
    induction list' generalizing r with
    | nil => exact ⟨s, r, rfl, rfl, start⟩
    | cons a rest ih =>
      have apart : ¬ shared a := by
        intro here
        rw [List.filter_cons_of_pos (by simpa using here)] at same
        cases same
      obtain ⟨middle, run, onward⟩ := right a apart s r start
      rw [List.filter_cons_of_neg (by simpa using apart)] at same
      obtain ⟨s', r', visited, visited', last⟩ := ih same onward
      exact ⟨s', r', visited, by rw [visit_cons, run, done_andThen, visited'], last⟩
  | cons a rest ih =>
    by_cases here : shared a
    · rw [List.filter_cons_of_pos (by simpa using here)] at same
      induction list' generalizing r with
      | nil => cases same
      | cons b others ih' =>
        by_cases there : shared b
        · rw [List.filter_cons_of_pos (by simpa using there)] at same
          obtain ⟨rfl, later⟩ := List.cons.inj same
          obtain ⟨next, next', run, run', onward⟩ := both b here s r start
          obtain ⟨s', r', visited, visited', last⟩ := ih later onward
          exact ⟨s', r', by rw [visit_cons, run, done_andThen, visited],
            by rw [visit_cons, run', done_andThen, visited'], last⟩
        · obtain ⟨middle, run, onward⟩ := right b there s r start
          rw [List.filter_cons_of_neg (by simpa using there)] at same
          obtain ⟨s', r', visited, visited', last⟩ := ih' same onward
          exact ⟨s', r', visited, by rw [visit_cons, run, done_andThen, visited'], last⟩
    · obtain ⟨middle, run, onward⟩ := left a here s r start
      rw [List.filter_cons_of_neg (by simpa using here)] at same
      obtain ⟨s', r', visited, visited', last⟩ := ih same onward
      exact ⟨s', r', by rw [visit_cons, run, done_andThen, visited], visited', last⟩

end Attempt

end Patchbay
