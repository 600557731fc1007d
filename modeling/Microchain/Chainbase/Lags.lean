import Microchain.Chainbase.Rollback

/-!
# Tables that differ in their times

A node's time says which session touched it last. `Lags g u`: the tables `g` and `u` are
equal but for the times of their nodes and backups, and those of `g` are not later. The
operations of the table look at times in three places only, `on_modify`, the old values
of `undo` and `compress_impl`; where both tables decide alike there, an operation keeps
them equal but for the times.
-/

namespace Microchain.Chainbase

open Microchain.Lib

variable {V : Type}

/-- The same object in the same place, with a time that is not later. -/
structure NodeLags (a b : Node V) : Prop where
  item : a.item = b.item
  erased : a.erased = b.erased
  mtime : a.mtime ≤ b.mtime

/-- The same backup, with a time that is not later. -/
structure OldLags (a b : OldNode V) : Prop where
  addr : a.addr = b.addr
  item : a.item = b.item
  current : a.current = b.current
  mtime : a.mtime ≤ b.mtime

/-- Two heaps that are equal but for times. -/
def Heap.Lags (heap' heap : Heap V) : Prop := ∀ p, Option.Rel NodeLags (heap' p) (heap p)

/-- Two lists of backups that are equal but for times. -/
abbrev OldsLag : List (OldNode V) → List (OldNode V) → Prop := List.Forall₂ OldLags

/-- A table with other times. -/
def UndoIndex.retimed (u : UndoIndex V) (heap : Heap V) (oldValues : List (OldNode V)) :
    UndoIndex V :=
  { u with heap, oldValues }

/-- `g` is `u` with times that are not later. -/
def Lags (g u : UndoIndex V) : Prop :=
  ∃ heap olds, g = u.retimed heap olds ∧ heap.Lags u.heap ∧ OldsLag olds u.oldValues

theorem NodeLags.refl (n : Node V) : NodeLags n n := ⟨rfl, rfl, Nat.le_refl _⟩

theorem NodeLags.trans {a b c : Node V} (hab : NodeLags a b) (hbc : NodeLags b c) :
    NodeLags a c :=
  ⟨hab.item.trans hbc.item, hab.erased.trans hbc.erased, Nat.le_trans hab.mtime hbc.mtime⟩

theorem OldLags.trans {a b c : OldNode V} (hab : OldLags a b) (hbc : OldLags b c) :
    OldLags a c :=
  ⟨hab.addr.trans hbc.addr, hab.item.trans hbc.item, hab.current.trans hbc.current,
    Nat.le_trans hab.mtime hbc.mtime⟩

/-! ## Heaps -/

namespace Heap.Lags

variable {heap heap' : Heap V}

theorem refl (heap : Heap V) : heap.Lags heap := by
  intro p
  cases heap p with
  | none => exact .none
  | some n => exact .some (NodeLags.refl n)

theorem some (h : heap'.Lags heap) {p : Nat} {n : Node V} (hp : heap p = .some n) :
    ∃ n', heap' p = .some n' ∧ NodeLags n' n := by
  have hrel := h p
  rw [hp] at hrel
  generalize heap' p = x at hrel
  cases hrel with
  | some hn => exact ⟨_, rfl, hn⟩

theorem none (h : heap'.Lags heap) {p : Nat} (hp : heap p = .none) : heap' p = .none := by
  have hrel := h p
  rw [hp] at hrel
  generalize heap' p = x at hrel
  cases hrel
  rfl

theorem trans {heap'' : Heap V} (h' : heap''.Lags heap') (h : heap'.Lags heap) :
    heap''.Lags heap := by
  intro p
  cases hp : heap p with
  | none =>
    rw [h'.none (h.none hp)]
    exact .none
  | some n =>
    obtain ⟨n', hn', hlag⟩ := h.some hp
    obtain ⟨n'', hn'', hlag'⟩ := h'.some hn'
    rw [hn'']
    exact .some (hlag'.trans hlag)

theorem item (h : heap'.Lags heap) : heap'.item = heap.item := by
  funext p
  unfold Heap.item
  cases hp : heap p with
  | none => rw [h.none hp]
  | some n =>
    obtain ⟨n', hn', hlag⟩ := h.some hp
    rw [hn']
    exact congrArg Option.some hlag.item

theorem set (h : heap'.Lags heap) (p : Nat) {n' n : Node V} (hn : NodeLags n' n) :
    (heap'.set p (.some n')).Lags (heap.set p (.some n)) := by
  intro q
  by_cases hq : q = p
  · subst hq
    rw [Heap.set_self, Heap.set_self]
    exact .some hn
  · rw [Heap.set_other _ _ hq, Heap.set_other _ _ hq]
    exact h q

theorem set_none (h : heap'.Lags heap) (p : Nat) :
    (heap'.set p .none).Lags (heap.set p .none) := by
  intro q
  by_cases hq : q = p
  · subst hq
    rw [Heap.set_self, Heap.set_self]
    exact .none
  · rw [Heap.set_other _ _ hq, Heap.set_other _ _ hq]
    exact h q

end Heap.Lags

/-- Comparison sees the objects only. -/
theorem Heap.less_of_item {heap heap' : Heap V} (h : heap'.item = heap.item)
    (comp : OrderedUnique V) : heap'.less comp = heap.less comp := by
  funext p q
  rw [Heap.less, Heap.less, h]

theorem insertImpl_of_item {heap heap' : Heap V} (h : heap'.item = heap.item) (p : Nat) :
    ∀ sets, insertImpl heap' p sets = insertImpl heap p sets
  | [] => rfl
  | set :: sets => by
    rw [insertImpl, insertImpl, Heap.less_of_item h, insertImpl_of_item h p sets]

theorem postModify_of_item {heap heap' : Heap V} (h : heap'.item = heap.item) (unique : Bool)
    (p : Nat) : ∀ sets, postModify unique heap' p sets = postModify unique heap p sets
  | [] => rfl
  | set :: sets => by
    rw [postModify, postModify, Heap.less_of_item h, postModify_of_item h unique p sets]

/-! ## Backups -/

namespace OldsLag

variable {olds olds' : List (OldNode V)}

theorem trans {a b c : List (OldNode V)} (hab : OldsLag a b) (hbc : OldsLag b c) :
    OldsLag a c := by
  induction hab generalizing c with
  | nil => exact hbc
  | cons hold _ ih =>
    cases hbc with
    | cons hold' hrest => exact .cons (hold.trans hold') (ih hrest)

theorem addrs (h : OldsLag olds' olds) : olds'.map OldNode.addr = olds.map OldNode.addr := by
  induction h with
  | nil => rfl
  | cons hold _ ih => rw [List.map_cons, List.map_cons, hold.addr, ih]

theorem currents (h : OldsLag olds' olds) :
    olds'.map OldNode.current = olds.map OldNode.current := by
  induction h with
  | nil => rfl
  | cons hold _ ih => rw [List.map_cons, List.map_cons, hold.current, ih]

theorem head_addr (h : OldsLag olds' olds) :
    olds'.head?.map OldNode.addr = olds.head?.map OldNode.addr := by
  cases h with
  | nil => rfl
  | cons hold _ => exact congrArg Option.some hold.addr

theorem tail (h : OldsLag olds' olds) : OldsLag olds'.tail olds.tail := by
  cases h with
  | nil => exact .nil
  | cons _ hrest => exact hrest

/-- Cutting by address cuts both at the same place. -/
theorem cut (h : OldsLag olds' olds) (addr : Nat) :
    OldsLag (olds'.takeWhile (·.addr != addr)) (olds.takeWhile (·.addr != addr)) ∧
      OldsLag (olds'.dropWhile (·.addr != addr)) (olds.dropWhile (·.addr != addr)) := by
  induction h with
  | nil => exact ⟨.nil, .nil⟩
  | @cons old' old olds' olds hold holds ih =>
    rw [List.takeWhile_cons, List.takeWhile_cons, List.dropWhile_cons, List.dropWhile_cons,
      hold.addr]
    split
    · exact ⟨.cons hold ih.1, ih.2⟩
    · exact ⟨.nil, .cons hold holds⟩

end OldsLag

/-! ## Operations without times -/

theorem UndoIndex.remove_eq (u : UndoIndex V) (p : Nat) :
    let x := UndoIndex.onRemove { u with byId := u.byId.erase p, secondary := eraseImpl p u.secondary } p
    u.remove p = if x.1 then x.2.disposeNode p else x.2 := by
  unfold UndoIndex.remove
  dsimp only
  split <;> simp [*]

variable {g u : UndoIndex V}

namespace Lags

theorem refl (u : UndoIndex V) : Lags u u := by
  refine ⟨u.heap, u.oldValues, rfl, Heap.Lags.refl _, ?_⟩
  exact List.forall₂_same.mpr fun old _ => ⟨rfl, rfl, rfl, Nat.le_refl _⟩

theorem trans {v : UndoIndex V} (hgu : Lags g u) (huv : Lags u v) : Lags g v := by
  obtain ⟨heap, olds, rfl, hheap, holds⟩ := hgu
  obtain ⟨heap', olds', rfl, hheap', holds'⟩ := huv
  exact ⟨heap, olds, rfl, hheap.trans hheap', holds.trans holds'⟩

theorem heap (h : Lags g u) : g.heap.Lags u.heap := by
  obtain ⟨heap, olds, rfl, hheap, -⟩ := h
  exact hheap

theorem olds (h : Lags g u) : OldsLag g.oldValues u.oldValues := by
  obtain ⟨heap, olds, rfl, -, holds⟩ := h
  exact holds

theorem byId (h : Lags g u) : g.byId = u.byId := by
  obtain ⟨heap, olds, rfl, -⟩ := h
  rfl

theorem undoStack (h : Lags g u) : g.undoStack = u.undoStack := by
  obtain ⟨heap, olds, rfl, -⟩ := h
  rfl

theorem nextId (h : Lags g u) : g.nextId = u.nextId := by
  obtain ⟨heap, olds, rfl, -⟩ := h
  rfl

theorem revision (h : Lags g u) : g.revision = u.revision := by
  obtain ⟨heap, olds, rfl, -⟩ := h
  rfl

theorem rows (h : Lags g u) : g.rows = u.rows := by
  rw [UndoIndex.rows, UndoIndex.rows, h.heap.item, h.byId]

theorem find (h : Lags g u) (id : Nat) : g.find id = u.find id := by
  rw [UndoIndex.find, UndoIndex.find, h.heap.item, h.byId]

theorem cutOldValues (h : Lags g u) (s : UndoState) :
    OldsLag (g.cutOldValues s).1 (u.cutOldValues s).1 ∧
      OldsLag (g.cutOldValues s).2 (u.cutOldValues s).2 := by
  unfold UndoIndex.cutOldValues
  cases s.oldValuesEnd with
  | none => exact ⟨h.olds, .nil⟩
  | some addr => exact h.olds.cut addr

theorem cutRemovedValues (h : Lags g u) (s : UndoState) :
    g.cutRemovedValues s = u.cutRemovedValues s := by
  obtain ⟨heap, olds, rfl, -⟩ := h
  rfl

/-- A step on both sides, one element after the other. -/
theorem foldl {α : Type} {step : UndoIndex V → α → UndoIndex V}
    (hstep : ∀ {g u : UndoIndex V} (a : α), Lags g u → Lags (step g a) (step u a)) :
    ∀ (l : List α) {g u : UndoIndex V}, Lags g u → Lags (l.foldl step g) (l.foldl step u)
  | [], _, _, h => h
  | a :: l, _, _, h => foldl hstep l (hstep a h)

theorem disposeNode (h : Lags g u) (p : Nat) : Lags (g.disposeNode p) (u.disposeNode p) := by
  obtain ⟨heap, olds, rfl, hheap, holds⟩ := h
  exact ⟨heap.set p none, olds, rfl, hheap.set_none p, holds⟩

theorem onRemove (h : Lags g u) (p : Nat) :
    (g.onRemove p).1 = (u.onRemove p).1 ∧ Lags (g.onRemove p).2 (u.onRemove p).2 := by
  obtain ⟨heap, olds, rfl, hheap, holds⟩ := h
  have hlag : Lags (u.retimed heap olds) u := ⟨heap, olds, rfl, hheap, holds⟩
  have hstack : (u.retimed heap olds).undoStack = u.undoStack := rfl
  have hheap' : (u.retimed heap olds).heap = heap := rfl
  cases hs : u.undoStack with
  | nil => simpa only [UndoIndex.onRemove, hstack, hs] using ⟨trivial, hlag⟩
  | cons s stack =>
    cases hp : u.heap p with
    | none =>
      simpa only [UndoIndex.onRemove, hstack, hheap', hs, hp, hheap.none hp] using ⟨trivial, hlag⟩
    | some n =>
      obtain ⟨n', hn', hn⟩ := hheap.some hp
      simp only [UndoIndex.onRemove, hstack, hheap', hs, hp, hn', hn.item]
      split
      · exact ⟨rfl, hlag⟩
      · refine ⟨rfl, heap.set p (some { n' with erased := true }), olds, ?_, ?_, holds⟩
        · simp only [UndoIndex.retimed, hn.item]
        · exact hheap.set p ⟨hn.item, rfl, hn.mtime⟩

theorem setRemovedValues (h : Lags g u) (removedValues : List Nat) :
    Lags { g with removedValues } { u with removedValues } := by
  obtain ⟨heap, olds, rfl, hheap, holds⟩ := h
  exact ⟨heap, olds, rfl, hheap, holds⟩

theorem setStack (h : Lags g u) (undoStack : List UndoState) (revision : Int) :
    Lags { g with undoStack, revision } { u with undoStack, revision } := by
  obtain ⟨heap, olds, rfl, hheap, holds⟩ := h
  exact ⟨heap, olds, rfl, hheap, holds⟩

/-- Changing what is the same on both sides. -/
theorem setIndices (h : Lags g u) (byId : List Nat) (secondary : List (SetImpl V)) :
    Lags { g with byId, secondary } { u with byId, secondary } := by
  obtain ⟨heap, olds, rfl, hheap, holds⟩ := h
  exact ⟨heap, olds, rfl, hheap, holds⟩

theorem secondary (h : Lags g u) : g.secondary = u.secondary := by
  obtain ⟨heap, olds, rfl, -⟩ := h
  rfl

theorem remove (h : Lags g u) (p : Nat) : Lags (g.remove p) (u.remove p) := by
  have herase := h.setIndices (u.byId.erase p) (eraseImpl p u.secondary)
  obtain ⟨hflag, hrest⟩ := herase.onRemove p
  rw [UndoIndex.remove_eq, UndoIndex.remove_eq, h.byId, h.secondary, hflag]
  split
  · exact hrest.disposeNode p
  · exact hrest

/-- **Emplace.** -/
theorem emplace (h : Lags g u) (value : V) :
    (g.emplace value).1 = (u.emplace value).1 ∧ Lags (g.emplace value).2 (u.emplace value).2 := by
  have hlag := h
  obtain ⟨heap, olds, rfl, hheap, holds⟩ := h
  unfold UndoIndex.emplace
  dsimp +instances only [UndoIndex.retimed]
  have hset := hheap.set u.nextId (NodeLags.refl
    ⟨⟨u.nextId, value⟩, if u.undoStack.isEmpty then 0 else u.monotonicRevision, false⟩)
  rw [insertImpl_of_item hset.item]
  split
  · exact ⟨rfl, hlag⟩
  · exact ⟨rfl, _, olds, rfl, hset, holds⟩

/-! ## Modify -/

theorem setSecondary (h : Lags g u) (secondary : List (SetImpl V)) :
    Lags { g with secondary } { u with secondary } := by
  obtain ⟨heap, olds, rfl, hheap, holds⟩ := h
  exact ⟨heap, olds, rfl, hheap, holds⟩

theorem dropOld (h : Lags g u) (secondary : List (SetImpl V)) :
    Lags { g with secondary, oldValues := g.oldValues.tail }
      { u with secondary, oldValues := u.oldValues.tail } := by
  obtain ⟨heap, olds, rfl, hheap, holds⟩ := h
  exact ⟨heap, olds.tail, rfl, hheap, holds.tail⟩

theorem assign (h : Lags g u) (p : Nat) (value : V) :
    Lags (g.assign p value) (u.assign p value) := by
  have hlag := h
  obtain ⟨heap, olds, rfl, hheap, holds⟩ := h
  have hheap' : (u.retimed heap olds).heap = heap := rfl
  cases hp : u.heap p with
  | none => simpa only [UndoIndex.assign, hheap', hp, hheap.none hp] using hlag
  | some n =>
    obtain ⟨n', hn', hn⟩ := hheap.some hp
    simp only [UndoIndex.assign, hheap', hp, hn']
    have hwritten : NodeLags { n' with item := { n'.item with value } }
        { n with item := { n.item with value } } :=
      ⟨congrArg (fun item : Object V => { item with value }) hn.item, hn.erased, hn.mtime⟩
    exact ⟨_, olds, rfl, hheap.set p hwritten, holds⟩

/-- Both sides take the row for touched by the newest session, or neither does. -/
def AgreeAt (g u : UndoIndex V) (p : Nat) : Prop :=
  ∀ n' n, g.heap p = some n' → u.heap p = some n → Touched u n → Touched g n'

theorem onModify (h : Lags g u) {p : Nat} (hagree : AgreeAt g u p) :
    (g.onModify p).1 = (u.onModify p).1 ∧ Lags (g.onModify p).2 (u.onModify p).2 := by
  cases hp : u.heap p with
  | none =>
    have hnone : ∀ v : UndoIndex V, v.heap p = none → v.onModify p = (false, v) := by
      intro v hv
      unfold UndoIndex.onModify
      rw [hv]
      split
      · next heq => cases heq
      · rfl
    rw [hnone u hp, hnone g (h.heap.none hp)]
    exact ⟨rfl, h⟩
  | some n =>
    obtain ⟨n', hn', hn⟩ := h.heap.some hp
    by_cases ht : Touched u n
    · rw [UndoIndex.onModify_of_touched hp ht, UndoIndex.onModify_of_touched hn' (hagree n' n hn' hp ht)]
      exact ⟨rfl, h⟩
    · have ht' : ¬ Touched g n' := fun htg => ht fun s hs =>
        Nat.le_trans (htg s (by rwa [h.undoStack])) hn.mtime
      -- both back up, and both nodes get the time of the call
      rw [UndoIndex.onModify_of_not_touched hp ht, UndoIndex.onModify_of_not_touched hn' ht']
      refine ⟨rfl, ?_⟩
      obtain ⟨heap, olds, rfl, hheap, holds⟩ := h
      refine ⟨_, _, rfl, hheap.set p ⟨hn.item, hn.erased, Nat.le_refl _⟩, ?_⟩
      exact .cons ⟨rfl, hn.item, rfl, hn.mtime⟩ holds

/-- **Modify**, where both sides agree on the row. -/
theorem modify (h : Lags g u) {p : Nat} (m : V → V) (hagree : AgreeAt g u p) :
    (g.modify p m).1 = (u.modify p m).1 ∧ Lags (g.modify p m).2 (u.modify p m).2 := by
  unfold UndoIndex.modify
  cases hp : u.heap p with
  | none =>
    rw [h.heap.none hp]
    exact ⟨rfl, h⟩
  | some n =>
    obtain ⟨n', hn', hn⟩ := h.heap.some hp
    obtain ⟨hbackup, hmodified⟩ := h.onModify hagree
    rw [hn']
    dsimp only
    rw [hn.item, hbackup]
    generalize (g.onModify p).2 = g₁ at hmodified
    generalize (u.onModify p).2 = u₁ at hmodified
    have hassign := hmodified.assign p (m n.item.value)
    rw [postModify_of_item hassign.heap.item, hassign.secondary]
    split
    · exact ⟨rfl, hassign.setSecondary _⟩
    · next secondary _ =>
      have hset := hassign.setSecondary secondary
      split
      · have hrevert := hset.assign p n.item.value
        rw [postModify_of_item hrevert.heap.item, hrevert.secondary]
        exact ⟨rfl, hrevert.dropOld _⟩
      · exact ⟨rfl, hset.remove p⟩

theorem addSession (h : Lags g u) : Lags g.addSession u.addSession := by
  obtain ⟨heap, olds, rfl, hheap, holds⟩ := h
  refine ⟨heap, olds, ?_, hheap, holds⟩
  simp only [UndoIndex.addSession, UndoIndex.retimed, holds.head_addr]

/-! ## Undo -/

theorem undoNew (h : Lags g u) (p : Nat) : Lags (g.undoNew p) (u.undoNew p) := by
  obtain ⟨heap, olds, rfl, hheap, holds⟩ := h
  exact ⟨heap.set p none, olds, rfl, hheap.set_none p, holds⟩

theorem undoRemoved (oldNextId : Nat) (h : Lags g u) (p : Nat) :
    Lags (g.undoRemoved oldNextId p) (u.undoRemoved oldNextId p) := by
  have hlag := h
  obtain ⟨heap, olds, rfl, hheap, holds⟩ := h
  have hheap' : (u.retimed heap olds).heap = heap := rfl
  cases hp : u.heap p with
  | none => simpa only [UndoIndex.undoRemoved, hheap', hp, hheap.none hp] using hlag
  | some n =>
    obtain ⟨n', hn', hn⟩ := hheap.some hp
    simp only [UndoIndex.undoRemoved, hheap', hp, hn', hn.item]
    split
    · have hrevived : NodeLags { n' with item := n.item, erased := false }
          { n with erased := false } :=
        ⟨rfl, rfl, hn.mtime⟩
      have hset := hheap.set p hrevived
      simp only [UndoIndex.retimed, insertImpl_of_item hset.item]
      cases insertUnique idLess p u.byId with
      | none => exact ⟨_, olds, rfl, hset, holds⟩
      | some byId =>
        cases insertImpl (u.heap.set p (some { n with erased := false })) p u.secondary with
        | none => exact ⟨_, olds, rfl, hset, holds⟩
        | some secondary => exact ⟨_, olds, rfl, hset, holds⟩
    · exact hlag.disposeNode p

/-- A backup that both sides restore. -/
theorem undoOld {ctime : Nat} {old' old : OldNode V} (h : Lags g u) (hold : OldLags old' old)
    (hctime : old.mtime < ctime) : Lags (g.undoOld ctime old') (u.undoOld ctime old) := by
  have hlag := h
  obtain ⟨heap, olds, rfl, hheap, holds⟩ := h
  have hheap' : (u.retimed heap olds).heap = heap := rfl
  have hctime' : old'.mtime < ctime := Nat.lt_of_le_of_lt hold.mtime hctime
  -- both restore: an earlier time is before the session all the more
  simp only [UndoIndex.undoOld, if_pos hctime, if_pos hctime', hold.current, hheap']
  cases hp : u.heap old.current with
  | none => simpa only [hheap.none hp] using hlag
  | some n =>
    obtain ⟨n', hn', hn⟩ := hheap.some hp
    have hrestored : NodeLags ⟨old'.item, old'.mtime, n.erased⟩ ⟨old.item, old.mtime, n.erased⟩ :=
      ⟨hold.item, rfl, hold.mtime⟩
    have hset := hheap.set old.current hrestored
    simp only [hn', hn.erased]
    split
    · exact ⟨_, olds, rfl, hset, holds⟩
    · refine ⟨_, olds, ?_, hset, holds⟩
      simp only [UndoIndex.retimed, postModify_of_item hset.item]

theorem foldl_undoOld {ctime : Nat} : ∀ {olds' olds : List (OldNode V)} {g u : UndoIndex V},
    OldsLag olds' olds → (∀ old ∈ olds, old.mtime < ctime) → Lags g u →
      Lags (olds'.foldl (UndoIndex.undoOld ctime) g) (olds.foldl (UndoIndex.undoOld ctime) u)
  | [], [], _, _, _, _, h => h
  | old' :: olds', old :: olds, _, _, holds, hctime, h => by
    obtain ⟨hold, hrest⟩ := List.forall₂_cons.mp holds
    obtain ⟨hfirst, hothers⟩ := List.forall_mem_cons.mp hctime
    rw [List.foldl_cons, List.foldl_cons]
    exact foldl_undoOld hrest hothers (h.undoOld hold hfirst)
  | [], _ :: _, _, _, holds, _, _ => nomatch holds
  | _ :: _, [], _, _, holds, _, _ => nomatch holds

/-- **Undo**, where the times of the session's backups are older than the session. -/
theorem undo (h : Lags g u)
    (hctime : ∀ s stack, u.undoStack = s :: stack → ∀ old ∈ (u.cutOldValues s).1, old.mtime < s.ctime) :
    Lags g.undo u.undo := by
  unfold UndoIndex.undo
  rw [h.undoStack]
  cases hs : u.undoStack with
  | nil => exact h
  | cons s stack =>
    obtain ⟨holds, hrest⟩ := h.cutOldValues s
    have hnews := foldl (fun p h => undoNew h p) (u.byId.filter (s.oldNextId ≤ ·)) h
    have hold := foldl_undoOld holds (hctime s stack hs) hnews
    have hremoved := foldl (fun p h => undoRemoved s.oldNextId h p) (u.cutRemovedValues s).1 hold
    dsimp only
    rw [h.byId, h.cutRemovedValues s]
    -- what is left of the old values are those from before the session
    obtain ⟨heap, olds, heq, hheap, -⟩ := hremoved
    refine ⟨heap, (g.cutOldValues s).2, ?_, hheap, hrest⟩
    rw [heq]
    rfl

/-! ## Squash -/

/-- Both sides take the same backups for redundant since `sessionStart`. -/
def AgreeSince (sessionStart : Nat) (old' old : OldNode V) : Prop :=
  OldLags old' old ∧ (sessionStart ≤ old'.mtime ↔ sessionStart ≤ old.mtime)

theorem compressOld {sessionStart : Nat} : ∀ {olds' olds : List (OldNode V)} {heap' heap : Heap V},
    List.Forall₂ (AgreeSince sessionStart) olds' olds → heap'.Lags heap →
      (UndoIndex.compressOld sessionStart heap' olds').1.Lags
          (UndoIndex.compressOld sessionStart heap olds).1 ∧
        OldsLag (UndoIndex.compressOld sessionStart heap' olds').2
          (UndoIndex.compressOld sessionStart heap olds).2
  | [], [], _, _, _, h => ⟨h, .nil⟩
  | old' :: olds', old :: olds, heap', heap, holds, h => by
    obtain ⟨⟨hold, hsince⟩, hrest⟩ := List.forall₂_cons.mp holds
    rw [UndoIndex.compressOld, UndoIndex.compressOld]
    -- the one decision by time; the other one reads the flag of the node
    by_cases hredundant : sessionStart ≤ old.mtime
    · rw [if_pos hredundant, if_pos (hsince.mpr hredundant)]
      exact compressOld hrest h
    · rw [if_neg hredundant, if_neg (mt hsince.mp hredundant), hold.current]
      cases hp : heap old.current with
      | none =>
        rw [h.none hp]
        obtain ⟨hheap, hkept⟩ := compressOld hrest h
        exact ⟨hheap, .cons hold hkept⟩
      | some n =>
        obtain ⟨n', hn', hn⟩ := h.some hp
        rw [hn']
        dsimp only
        rw [hn.erased]
        split
        · exact compressOld hrest (h.set _ ⟨hold.item, rfl, hold.mtime⟩)
        · obtain ⟨hheap, hkept⟩ := compressOld hrest h
          exact ⟨hheap, .cons hold hkept⟩
  | [], _ :: _, _, _, holds, _ => nomatch holds
  | _ :: _, [], _, _, holds, _ => nomatch holds

theorem isNew (h : Lags g u) (oldNextId p : Nat) : g.isNew oldNextId p = u.isNew oldNextId p := by
  rw [UndoIndex.isNew, UndoIndex.isNew, h.heap.item]

theorem compressImpl (h : Lags g u) {session last : UndoState}
    (hsince : List.Forall₂ (AgreeSince session.ctime) (g.cutOldValues last).1
      (u.cutOldValues last).1) :
    Lags (g.compressImpl session last) (u.compressImpl session last) := by
  obtain ⟨-, hrest⟩ := h.cutOldValues last
  obtain ⟨hheap, hkept⟩ := compressOld hsince h.heap
  unfold UndoIndex.compressImpl
  rw [h.cutRemovedValues last]
  dsimp only
  generalize UndoIndex.compressOld session.ctime g.heap (g.cutOldValues last).1 = x at hheap hkept
  generalize UndoIndex.compressOld session.ctime u.heap (u.cutOldValues last).1 = y at hheap hkept
  have hcompressed : Lags { g with heap := x.1, oldValues := x.2 ++ (g.cutOldValues last).2 }
      { u with heap := y.1, oldValues := y.2 ++ (u.cutOldValues last).2 } := by
    obtain ⟨heap, olds, rfl, -, -⟩ := h
    exact ⟨x.1, _, rfl, hheap, List.rel_append hkept hrest⟩
  have hnew := funext fun p => hcompressed.isNew session.oldNextId p
  rw [hnew]
  exact (foldl (fun p h => disposeNode h p) _ hcompressed).setRemovedValues _

/-- Dropping both undo lists. -/
theorem disposeUndo (h : Lags g u) : Lags g.disposeUndo u.disposeUndo := by
  have hremoved : g.removedValues = u.removedValues := by
    obtain ⟨heap, olds, rfl, -, -⟩ := h
    rfl
  have hdisposed := foldl (fun p h => disposeNode h p) u.removedValues h
  unfold UndoIndex.disposeUndo
  rw [hremoved]
  obtain ⟨heap, olds, heq, hheap, -⟩ := hdisposed
  exact ⟨heap, [], by rw [heq]; rfl, hheap, .nil⟩

theorem squashFast (h : Lags g u) : Lags g.squashFast u.squashFast := by
  unfold UndoIndex.squashFast
  rw [h.undoStack]
  match u.undoStack with
  | [] => exact h
  | [_] =>
    have hdisposed := h.disposeUndo
    simp only [h.revision]
    exact hdisposed.setStack _ _
  | _ :: _ :: _ =>
    simp only [h.revision]
    exact h.setStack _ _

/-- **Squash**, where both sides take the same backups for redundant. -/
theorem squash (h : Lags g u)
    (hsince : ∀ last session stack, u.undoStack = last :: session :: stack →
      List.Forall₂ (AgreeSince session.ctime) (g.cutOldValues last).1 (u.cutOldValues last).1) :
    Lags g.squash u.squash := by
  unfold UndoIndex.squash
  rw [h.undoStack]
  match hs : u.undoStack with
  | [] => exact h.squashFast
  | [_] => exact h.squashFast
  | last :: session :: stack => exact (h.compressImpl (hsince last session stack hs)).squashFast

/-! ## Commit -/

theorem dispose (h : Lags g u) (s : UndoState) : Lags (g.dispose s) (u.dispose s) := by
  obtain ⟨hfront, hrest⟩ := h.cutOldValues s
  have hdisposed := foldl (fun p h => disposeNode h p) (u.cutRemovedValues s).2.tail h
  unfold UndoIndex.dispose
  rw [h.cutRemovedValues s]
  obtain ⟨heap, olds, heq, hheap, -⟩ := hdisposed
  refine ⟨heap, (g.cutOldValues s).1 ++ (g.cutOldValues s).2.take 1, ?_, hheap, ?_⟩
  · simp only [heq]
    rfl
  · exact List.rel_append hfront (List.forall₂_take 1 hrest)

/-- **Commit.** -/
theorem commit (h : Lags g u) (r : Int) : Lags (g.commit r) (u.commit r) := by
  unfold UndoIndex.commit
  simp only [h.revision, h.undoStack]
  split
  · have hdisposed := h.disposeUndo
    simpa only [hdisposed.revision] using hdisposed.setStack [] u.disposeUndo.revision
  · split
    · split
      · next s _ =>
        have hdisposed := h.dispose s
        simpa only [hdisposed.revision] using hdisposed.setStack _ (u.dispose s).revision
      · exact h
    · exact h

end Lags

end Microchain.Chainbase
