import Mathlib.Data.List.Basic
import Mathlib.Logic.Function.Basic

/-!
# Maps written by a list of writes

A map after a list of writes holds, for every key, what the last write to the key
says (`store_apply`). So two orders of the same writes leave the same map exactly
when they agree on every last write (`store_eq_iff`), whatever the map was before.
-/

namespace Microchain.Lib

universe u v

variable {κ : Type u} {β : Type v} [DecidableEq κ]

/-- The map after the writes, in order. -/
def store (t : κ → Option β) (writes : List (κ × β)) : κ → Option β :=
  writes.foldl (fun t w => Function.update t w.1 (some w.2)) t

theorem store_append (t : κ → Option β) (l l' : List (κ × β)) :
    store t (l ++ l') = store (store t l) l' := List.foldl_append

/-- What the last write to a key says. -/
def lastWrite (writes : List (κ × β)) (key : κ) : Option β :=
  ((writes.filter (·.1 = key)).getLast?).map Prod.snd

theorem lastWrite_append (l l' : List (κ × β)) (key : κ) :
    lastWrite (l ++ l') key = (lastWrite l' key).or (lastWrite l key) := by
  rw [lastWrite, List.filter_append, List.getLast?_append, lastWrite, lastWrite, Option.map_or]

/-- **A key holds its last write**, or what it held before. -/
theorem store_apply (t : κ → Option β) (writes : List (κ × β)) (key : κ) :
    store t writes key = (lastWrite writes key).or (t key) := by
  induction writes generalizing t with
  | nil => rfl
  | cons w writes ih =>
    have hcons := lastWrite_append [w] writes key
    rw [List.singleton_append] at hcons
    rw [hcons, Option.or_assoc]
    refine (ih _).trans (congrArg _ ?_)
    by_cases hkey : w.1 = key
    · subst hkey
      simp [lastWrite]
    · simp [lastWrite, hkey, Function.update_of_ne (Ne.symm hkey)]

/-- A key has a last write when it is written. -/
theorem lastWrite_isSome {writes : List (κ × β)} {key : κ} :
    (lastWrite writes key).isSome ↔ ∃ w ∈ writes, w.1 = key := by
  rw [lastWrite, Option.isSome_map, List.getLast?_isSome, ne_eq, List.filter_eq_nil_iff]
  simp

/-- **Two orders of the same writes** leave the same map when every last write is
the same, and only then. -/
theorem store_eq_iff (t : κ → Option β) {l l' : List (κ × β)} (hperm : l.Perm l') :
    (∀ key, store t l key = store t l' key) ↔ ∀ key, lastWrite l key = lastWrite l' key := by
  refine forall_congr' fun key => ?_
  rw [store_apply, store_apply]
  have hsome : (lastWrite l key).isSome ↔ (lastWrite l' key).isSome := by
    rw [lastWrite_isSome, lastWrite_isSome]
    exact ⟨fun ⟨w, hw, hkey⟩ => ⟨w, hperm.mem_iff.mp hw, hkey⟩,
      fun ⟨w, hw, hkey⟩ => ⟨w, hperm.mem_iff.mpr hw, hkey⟩⟩
  cases hl : lastWrite l key with
  | none =>
    cases hl' : lastWrite l' key with
    | none => simp
    | some b => simp [hl, hl'] at hsome
  | some a =>
    cases hl' : lastWrite l' key with
    | none => simp [hl, hl'] at hsome
    | some b => simp

end Microchain.Lib
