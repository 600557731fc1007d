import Mathlib.Data.List.Basic

/-!
# Descent over rounds

A system takes steps of many parts in any order. A rank bounds what is left to do: no step
raises it, and from a state that is not done some step helps, and goes on to help until
the rank falls. Then it falls in every round in which each of the steps that can help
occurs, whatever else the round is made of.
-/

namespace Microchain.Lib

universe u v

section Rounds

variable {σ : Type u} {α : Type v} {step : σ → α → σ} {Quiet : α → Prop} {Rank : ℕ → σ → Prop}
  {Helps : σ → α → Prop} {fair : List α}

/-- A rank that falls under fair scheduling; `Quiet` says which steps there are. -/
structure Descends (step : σ → α → σ) (Quiet : α → Prop) (Rank : ℕ → σ → Prop)
    (Helps : σ → α → Prop) (fair : List α) : Prop where
  keeps : ∀ {n s a}, Quiet a → Rank n s → Rank n (step s a)
  falls : ∀ {n s a}, Quiet a → Rank (n + 1) s → Helps s a → Rank n (step s a)
  stays : ∀ {n s a}, Quiet a → Rank (n + 1) s → Rank n (step s a) ∨
    ∀ a', Helps s a' → Helps (step s a) a'
  enabled : ∀ {n s}, Rank (n + 1) s → Rank n s ∨ ∃ a ∈ fair, Helps s a

namespace Descends

variable (h : Descends step Quiet Rank Helps fair)
include h

theorem foldl_keeps {n : ℕ} {s : σ} {round : List α} (hquiet : ∀ a ∈ round, Quiet a)
    (hs : Rank n s) : Rank n (round.foldl step s) := by
  induction round generalizing s with
  | nil => exact hs
  | cons a round ih =>
    exact ih (fun b hb => hquiet b (List.mem_cons_of_mem _ hb))
      (h.keeps (hquiet a (List.mem_cons_self ..)) hs)

/-- A step that helps occurs. -/
theorem foldl_falls {n : ℕ} {s : σ} {a : α} {round : List α} (hquiet : ∀ b ∈ round, Quiet b)
    (hs : Rank (n + 1) s) (hmem : a ∈ round) (hhelps : Helps s a) :
    Rank n (round.foldl step s) := by
  induction round generalizing s with
  | nil => cases hmem
  | cons b round ih =>
    have hb := hquiet b (List.mem_cons_self ..)
    have hrest : ∀ c ∈ round, Quiet c := fun c hc => hquiet c (List.mem_cons_of_mem _ hc)
    show Rank n (round.foldl step (step s b))
    rcases List.mem_cons.mp hmem with rfl | hmem
    · exact h.foldl_keeps hrest (h.falls hb hs hhelps)
    · rcases h.stays hb hs with hfallen | hstill
      · exact h.foldl_keeps hrest hfallen
      · exact ih hrest (h.keeps hb hs) hmem (hstill a hhelps)

/-- **As many rounds as the rank** end in a state that is done. -/
theorem rounds {n : ℕ} {s : σ} {rounds : List (List α)}
    (hquiet : ∀ round ∈ rounds, ∀ a ∈ round, Quiet a)
    (hfair : ∀ round ∈ rounds, ∀ a ∈ fair, a ∈ round) (hs : Rank n s)
    (hlen : n ≤ rounds.length) : Rank 0 (rounds.flatten.foldl step s) := by
  induction rounds generalizing n s with
  | nil =>
    obtain rfl : n = 0 := Nat.le_zero.mp hlen
    exact hs
  | cons round rounds ih =>
    have hround := hquiet round (List.mem_cons_self ..)
    have hrest : ∀ {n}, Rank n (round.foldl step s) → n ≤ rounds.length →
        Rank 0 ((round :: rounds).flatten.foldl step s) := by
      intro n hrank hle
      rw [List.flatten_cons, List.foldl_append]
      exact ih (fun r hr => hquiet r (List.mem_cons_of_mem _ hr))
        (fun r hr => hfair r (List.mem_cons_of_mem _ hr)) hrank hle
    cases n with
    | zero => exact hrest (h.foldl_keeps hround hs) (Nat.zero_le _)
    | succ n =>
      refine hrest ?_ (Nat.le_of_succ_le_succ hlen)
      rcases h.enabled hs with hfallen | ⟨a, ha, hhelps⟩
      · exact h.foldl_keeps hround hfallen
      · exact h.foldl_falls hround hs (hfair round (List.mem_cons_self ..) a ha) hhelps

end Descends

end Rounds

end Microchain.Lib
