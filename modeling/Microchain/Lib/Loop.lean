import Mathlib.Logic.Relation
import Microchain.Lib.Run

/-!
# Loops

`while (true) turn`, for a bounded number of turns: a turn fails, leaves the loop with
a result, or leaves a state for the next turn. Where every turn lowers a measure, as
many turns as the measure says are enough, and what the loop does is what the turn does
at the last state reached: it fails exactly where a turn fails in a state reached from
the first (`loop_fails_iff`).
-/

namespace Microchain.Lib

universe u

open Relation

/-- How a turn of a loop ends. -/
inductive Turn (σ β : Type u) where
  | again (s : σ)
  | done (b : β)

namespace Turn

variable {σ β : Type u}

/-- `I` of the state for the next turn, `Q` of the result. -/
def Holds (I : σ → Prop) (Q : β → Prop) : Turn σ β → Prop
  | again s => I s
  | done b => Q b

end Turn

variable {ε σ β : Type u} {turn : σ → Run ε (Turn σ β)}

/-- The loop, for as many turns as there is fuel. -/
def loop (turn : σ → Run ε (Turn σ β)) : Nat → σ → Run ε β
  | 0, _ => .running
  | fuel + 1, s => turn s >>= fun
    | .again s' => loop turn fuel s'
    | .done b => .returns b

/-- The turn at `s` leaves `s'` for the next one. -/
def Again (turn : σ → Run ε (Turn σ β)) (s s' : σ) : Prop := turn s = .returns (.again s')

/-- The turns from `s` on lead to `s'`. -/
def Reaches (turn : σ → Run ε (Turn σ β)) : σ → σ → Prop := ReflTransGen (Again turn)

theorem Reaches.refl (s : σ) : Reaches turn s s := ReflTransGen.refl

theorem loop_again {s s' : σ} (h : Again turn s s') (fuel : Nat) :
    loop turn (fuel + 1) s = loop turn fuel s' := by
  show (turn s >>= _) = _
  rw [h]
  rfl

theorem loop_done {s : σ} {b : β} (h : turn s = .returns (.done b)) (fuel : Nat) :
    loop turn (fuel + 1) s = .returns b := by
  show (turn s >>= _) = _
  rw [h]
  rfl

theorem loop_fails {s : σ} {e : ε} (h : turn s = .fails e) (fuel : Nat) :
    loop turn (fuel + 1) s = .fails e := by
  show (turn s >>= _) = _
  rw [h]
  rfl

/-- What the loop returns, one of its turns does: this one or one after it. -/
theorem loop_returns {fuel : Nat} {s : σ} {b : β} (h : loop turn (fuel + 1) s = .returns b) :
    turn s = .returns (.done b) ∨ ∃ s', Again turn s s' ∧ loop turn fuel s' = .returns b := by
  obtain ⟨t, ht, hloop⟩ := returns_of_bind h
  cases t with
  | again s' => exact .inr ⟨s', ht, hloop⟩
  | done b' =>
    cases hloop
    exact .inl ht

/-- A turn that gets further makes a loop that does. -/
theorem loop_upto {turn turn' : σ → Run ε (Turn σ β)} (h : ∀ s, (turn s).Upto (turn' s)) :
    ∀ fuel s, (loop turn fuel s).Upto (loop turn' fuel s)
  | 0, _ => Run.Upto.refl _
  | fuel + 1, s => (h s).bind fun t => by
    cases t with
    | again s' => exact loop_upto h fuel s'
    | done b => exact Run.Upto.refl _

/-- The states that the loop comes to, for as many turns as there is fuel. -/
def visits (turn : σ → Run ε (Turn σ β)) : Nat → σ → List σ
  | 0, _ => []
  | fuel + 1, s => s :: match turn s with
    | .returns (.again s') => visits turn fuel s'
    | _ => []

theorem visits_again {s s' : σ} (h : Again turn s s') (fuel : Nat) :
    visits turn (fuel + 1) s = s :: visits turn fuel s' := by
  rw [visits, show turn s = .returns (.again s') from h]

theorem visits_done {s : σ} {b : β} (h : turn s = .returns (.done b)) (fuel : Nat) :
    visits turn (fuel + 1) s = [s] := by
  rw [visits, h]

/-- An invariant of the states holds at every turn, so the loop's result has what the
last turn gives it. -/
theorem loop_all {I : σ → Prop} {Q : β → Prop}
    (hturn : ∀ s, I s → (turn s).All (Turn.Holds I Q)) :
    ∀ (fuel : Nat) {s : σ}, I s → (loop turn fuel s).All Q
  | 0, _, _ => Run.All.running
  | fuel + 1, s, hs => by
    refine Run.All.bind (hturn s hs) ?_
    intro t ht
    cases t with
    | again s' => exact loop_all hturn fuel ht
    | done b => exact Run.All.returns ht

section Measured

variable (μ : σ → Nat) (ν : β → Nat)

/-- Every turn ends, and lowers the measure for the next one. What it leaves the loop
with measures no more than its state. -/
def Lowers (turn : σ → Run ε (Turn σ β)) : Prop :=
  ∀ s, (turn s).Ends (Turn.Holds (fun s' => μ s' < μ s) fun b => ν b ≤ μ s)

variable {μ ν}

theorem Lowers.again (h : Lowers μ ν turn) {s s' : σ} (hs : Again turn s s') : μ s' < μ s :=
  (h s).all _ hs

theorem Lowers.done (h : Lowers μ ν turn) {s : σ} {b : β} (hs : turn s = .returns (.done b)) :
    ν b ≤ μ s :=
  (h s).all _ hs

theorem loop_ends (h : Lowers μ ν turn) :
    ∀ {fuel : Nat} {s : σ}, μ s < fuel → (loop turn fuel s).Ends fun b => ν b ≤ μ s
  | 0, _, hlt => absurd hlt (Nat.not_lt_zero _)
  | fuel + 1, s, hlt => by
    cases ht : turn s with
    | running => exact absurd ht (h s).settled
    | fails e =>
      rw [loop_fails ht]
      exact Run.Ends.fails e
    | returns t =>
      cases t with
      | again s' =>
        have hs' : μ s' < μ s := h.again ht
        rw [loop_again ht]
        exact (loop_ends h (by omega)).mono fun b hb => by omega
      | done b =>
        rw [loop_done ht]
        exact Run.Ends.returns (h.done ht)

/-- With fuel for the measure, the loop fails exactly where the turn fails in a state
that is reached. -/
theorem loop_fails_iff (h : Lowers μ ν turn) {e : ε} :
    ∀ {fuel : Nat} {s : σ}, μ s < fuel →
      (loop turn fuel s = .fails e ↔ ∃ s', Reaches turn s s' ∧ turn s' = .fails e)
  | 0, _, hlt => absurd hlt (Nat.not_lt_zero _)
  | fuel + 1, s, hlt => by
    -- every state reached from `s` is `s` itself or reached from the next one
    have hhead : (∃ t, Reaches turn s t ∧ turn t = .fails e) ↔
        turn s = .fails e ∨ ∃ s', Again turn s s' ∧ ∃ t, Reaches turn s' t ∧ turn t = .fails e := by
      constructor
      · rintro ⟨t, hreach, ht⟩
        obtain rfl | ⟨s', hs', hreach'⟩ := ReflTransGen.cases_head hreach
        · exact .inl ht
        · exact .inr ⟨s', hs', t, hreach', ht⟩
      · rintro (hs | ⟨s', hs', t, hreach, ht⟩)
        · exact ⟨s, .refl s, hs⟩
        · exact ⟨t, ReflTransGen.head hs' hreach, ht⟩
    rw [hhead]
    cases ht : turn s with
    | running => exact absurd ht (h s).settled
    | fails e' =>
      rw [loop_fails ht]
      simp [Again, ht]
    | returns t =>
      cases t with
      | again s' =>
        have hs' : μ s' < μ s := h.again ht
        rw [loop_again ht, loop_fails_iff h (by omega)]
        simp [Again, ht]
      | done b =>
        rw [loop_done ht]
        simp [Again, ht]

/-- The same for a kind of failure. -/
theorem loop_failsWith_iff (h : Lowers μ ν turn) {P : ε → Prop} {fuel : Nat} {s : σ}
    (hlt : μ s < fuel) :
    (loop turn fuel s).FailsWith P ↔ ∃ s', Reaches turn s s' ∧ (turn s').FailsWith P := by
  constructor
  · rintro ⟨e, he, hloop⟩
    obtain ⟨s', hreach, hs'⟩ := (loop_fails_iff h hlt).mp hloop
    exact ⟨s', hreach, e, he, hs'⟩
  · rintro ⟨s', hreach, e, he, hs'⟩
    exact ⟨e, he, (loop_fails_iff h hlt).mpr ⟨s', hreach, hs'⟩⟩

/-- A loop of turns that never fail so ends well. -/
theorem loop_endsWell (h : Lowers μ ν turn) {P : ε → Prop} (hP : ∀ s, (turn s).NeverFails P)
    {fuel : Nat} {s : σ} (hlt : μ s < fuel) : (loop turn fuel s).EndsWell P := by
  refine ⟨(loop_ends h hlt).settled, Run.neverFails_iff.mpr fun hf => ?_⟩
  obtain ⟨s', -, hs'⟩ := (loop_failsWith_iff h hlt).mp hf
  exact Run.neverFails_iff.mp (hP s') hs'

end Measured

end Microchain.Lib
