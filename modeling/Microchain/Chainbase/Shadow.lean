import Microchain.Chainbase.FailedModify
import Microchain.Chainbase.Refinement

/-!
# The table that a table with stale times stands for

A refused `modify` that took its backup away again leaves a node whose time says that the
newest session touched it, while that session holds nothing of it. From then on the times
of the table are no longer those of its invariant. `Shadowed u t`: some table `g` that is
`u` but for times, none of them later, stands for the table with copies `t`; and the
backups in each session's part of the old values are older than the session.

An operation carries the relation over when the times that it reads mean what they say:
`SafeModify`, `SafeSquash`. The other operations do not depend on times, or only on those
of the backups.
-/

namespace Microchain.Chainbase

open Microchain.Lib

variable {V : Type} {comps : List (OrderedUnique V)} {u : UndoIndex V} {t : SnapshotTable V}

/-! ## The times of the backups -/

/-- Each session's part of the old values is older than the session. -/
inductive Dated : List UndoState → List (OldNode V) → Prop where
  | nil (olds) : Dated [] olds
  | cons {s stack olds rest} (recent : ∀ old ∈ olds, old.mtime < s.ctime)
    (old_end : s.oldValuesEnd = rest.head?.map OldNode.addr) (before : Dated stack rest) :
    Dated (s :: stack) (olds ++ rest)

namespace Dated

variable {s : UndoState} {stack : List UndoState} {olds : List (OldNode V)}

theorem uncons (h : Dated (s :: stack) olds) :
    ∃ front rest, olds = front ++ rest ∧ (∀ old ∈ front, old.mtime < s.ctime) ∧
      s.oldValuesEnd = rest.head?.map OldNode.addr ∧ Dated stack rest := by
  cases h with
  | cons recent old_end before => exact ⟨_, _, rfl, recent, old_end, before⟩

theorem push (h : Dated stack olds) (old : OldNode V)
    (hold : ∀ s, stack.head? = some s → old.mtime < s.ctime) : Dated stack (old :: olds) := by
  cases h with
  | nil => exact .nil _
  | @cons s stack front rest recent old_end before =>
    rw [← List.cons_append]
    exact .cons (List.forall_mem_cons.mpr ⟨hold s rfl, recent⟩) old_end before

/-- What is left after the sessions before the `k`th are committed. -/
theorem truncate (h : Dated stack olds) {k : Nat} (hs : stack[k]? = some s) :
    ∃ front rest, olds = front ++ rest ∧ s.oldValuesEnd = rest.head?.map OldNode.addr ∧
      Dated (stack.take (k + 1)) (front ++ rest.take 1) := by
  induction h generalizing k with
  | nil => cases hs
  | @cons s' stack front rest recent old_end before ih =>
    cases k with
    | zero =>
      obtain rfl : s' = s := Option.some.inj hs
      refine ⟨front, rest, rfl, old_end, ?_⟩
      rw [List.take_succ_cons, List.take_zero]
      exact .cons recent (by rw [old_end]; cases rest <;> rfl) (.nil _)
    | succ k =>
      obtain ⟨front', rest', rfl, hend, htail⟩ := ih hs
      refine ⟨front ++ front', rest', (List.append_assoc _ _ _).symm, hend, ?_⟩
      rw [List.take_succ_cons, List.append_assoc]
      refine .cons recent ?_ htail
      rw [old_end]
      cases front' <;> cases rest' <;> rfl

/-- The head of a session's list cuts it where the session's part ends. -/
theorem cut (h : Dated u.undoStack u.oldValues) (hnodup : (u.oldValues.map OldNode.addr).Nodup)
    (hstack : u.undoStack = s :: stack) :
    (∀ old ∈ (u.cutOldValues s).1, old.mtime < s.ctime) ∧ Dated stack (u.cutOldValues s).2 := by
  rw [hstack] at h
  obtain ⟨front, rest, holds, hrecent, hend, hbefore⟩ := h.uncons
  rw [UndoIndex.cutOldValues_eq holds hnodup hend]
  exact ⟨hrecent, hbefore⟩

end Dated

/-- The backups that `compress_impl` keeps are older than the session before. -/
theorem compressOld_recent (sessionStart : Nat) : ∀ (heap : Heap V) (olds : List (OldNode V)),
    ∀ old ∈ (UndoIndex.compressOld sessionStart heap olds).2, old.mtime < sessionStart
  | _, [] => by simp [UndoIndex.compressOld]
  | heap, first :: olds => by
    rw [UndoIndex.compressOld]
    split
    · exact compressOld_recent sessionStart heap olds
    · next hrecent =>
      split
      · split
        · exact compressOld_recent sessionStart _ olds
        · exact List.forall_mem_cons.mpr
            ⟨Nat.not_le.mp hrecent, compressOld_recent sessionStart heap olds⟩
      · exact List.forall_mem_cons.mpr
          ⟨Nat.not_le.mp hrecent, compressOld_recent sessionStart heap olds⟩

/-! ## The relation -/

/-- The table stands for the table with copies `t`, but for times. -/
structure Shadowed (comps : List (OrderedUnique V)) (u : UndoIndex V) (t : SnapshotTable V) :
    Prop where
  shadow : ∃ g, Refines comps g t ∧ Lags g u
  dated : Dated u.undoStack u.oldValues

theorem Shadowed.empty (comps : List (OrderedUnique V)) :
    Shadowed comps (UndoIndex.empty comps) .empty :=
  ⟨⟨_, Refines.empty comps, Lags.refl _⟩, .nil _⟩

/-! ## The newest session -/

/-- The newest layer of a history, whatever it holds. -/
theorem History.layer {s : UndoState} {stack : List UndoState} {olds : List (OldNode V)}
    {removed : List Nat} {c : Content V} {snaps : List (Snapshot V)}
    (h : History comps (s :: stack) olds removed c snaps) :
    ∃ oldsA oldsB removedA removedB snaps', olds = oldsA ++ oldsB ∧ removed = removedA ++ removedB ∧
      SessionOk c s oldsA removedA ∧ s.oldValuesEnd = oldsB.head?.map OldNode.addr ∧
      History comps stack oldsB removedB (c.rewind s oldsA removedA) snaps' := by
  cases h with
  | cons session old_end _ _ _ before =>
    exact ⟨_, _, _, _, _, rfl, rfl, session, old_end, before⟩

/-- The newest session and its part of the old values. -/
theorem Refines.newest (h : Refines comps u t) {s : UndoState} {stack : List UndoState}
    (hstack : u.undoStack = s :: stack) :
    ∃ removed removedRest snaps, u.removedValues = removed ++ removedRest ∧
      SessionOk u.content s (u.cutOldValues s).1 removed ∧
      History comps stack (u.cutOldValues s).2 removedRest
        (u.content.rewind s (u.cutOldValues s).1 removed) snaps := by
  have hhist := h.history
  rw [hstack] at hhist
  obtain ⟨olds, oldRest, removed, removedRest, snaps, holds, hremoved, session, hend, hbefore⟩ :=
    hhist.layer
  rw [UndoIndex.cutOldValues_eq holds h.store.addr_nodup hend]
  exact ⟨removed, removedRest, snaps, hremoved, session, hbefore⟩

/-- The session can give the row back: it created it or holds a backup of it. -/
def UndoIndex.Covers (u : UndoIndex V) (s : UndoState) (p : Nat) : Prop :=
  s.oldNextId ≤ p ∨ p ∈ (u.cutOldValues s).1.map OldNode.current

theorem Lags.covers {g : UndoIndex V} (h : Lags g u) {s : UndoState} {p : Nat} :
    g.Covers s p ↔ u.Covers s p := by
  rw [UndoIndex.Covers, UndoIndex.Covers, (h.cutOldValues s).1.currents]

/-- A table whose old values are those from before the session `last`. -/
def UndoIndex.beforeSession (u : UndoIndex V) (last : UndoState) : UndoIndex V :=
  { u with oldValues := (u.cutOldValues last).2 }

theorem Lags.beforeSession {g : UndoIndex V} (h : Lags g u) (last : UndoState) :
    Lags (g.beforeSession last) (u.beforeSession last) := by
  obtain ⟨-, hrest⟩ := h.cutOldValues last
  obtain ⟨heap, olds, rfl, hheap, holds⟩ := h
  exact ⟨heap, _, rfl, hheap, hrest⟩

/-! ## Where the code trusts a time -/

/-- A time that makes `on_modify` skip the backup is true. -/
def SafeModify (u : UndoIndex V) (p : Nat) : Prop :=
  ∀ s stack node, u.undoStack = s :: stack → u.heap p = some node → s.ctime ≤ node.mtime →
    u.Covers s p

/-- A time that makes `compress_impl` drop a backup is true. -/
def SafeSquash (u : UndoIndex V) : Prop :=
  ∀ last session stack, u.undoStack = last :: session :: stack →
    ∀ old ∈ (u.cutOldValues last).1, session.ctime ≤ old.mtime →
      (u.beforeSession last).Covers session old.current

/-- Where the time of the row is true, the shadow has touched the row too. -/
theorem SafeModify.agreeAt {g : UndoIndex V} (h : Refines comps g t) (hlag : Lags g u) {p : Nat}
    (hp : p ∈ g.byId) (hsafe : SafeModify u p) : Lags.AgreeAt g u p := by
  intro n' n hn' hn ht s hs
  obtain ⟨stack, hstack⟩ : ∃ stack, u.undoStack = s :: stack := by
    rw [hlag.undoStack] at hs
    exact List.head?_eq_some_iff.mp hs
  have hcovers := hlag.covers.mpr (hsafe s stack n hstack hn (ht s (by rw [hstack]; rfl)))
  obtain ⟨removed, removedRest, snaps, -, session, -⟩ := h.newest (hlag.undoStack.trans hstack)
  refine (session.touched p n'.item.value n'.mtime ((g.content_live p).mpr hp) ?_).mpr hcovers
  rw [g.content_vals, hn']
  rfl

theorem OldsLag.agree {start : Nat} {olds' olds : List (OldNode V)} (h : OldsLag olds' olds)
    (hwhen : ∀ old' ∈ olds', ∀ old ∈ olds, OldLags old' old → start ≤ old.mtime →
      start ≤ old'.mtime) : List.Forall₂ (Lags.AgreeSince start) olds' olds := by
  induction h with
  | nil => exact .nil
  | cons hold _ ih =>
    refine .cons ⟨hold, fun hle => Nat.le_trans hle hold.mtime, ?_⟩ (ih ?_)
    · exact hwhen _ List.mem_cons_self _ List.mem_cons_self hold
    · exact fun a ha b hb => hwhen a (List.mem_cons_of_mem _ ha) b (List.mem_cons_of_mem _ hb)

/-- Where the times of the last session's backups are true, the shadow drops the same
backups. -/
theorem SafeSquash.agreeSince {g : UndoIndex V} (h : Refines comps g t) (hlag : Lags g u)
    (hsafe : SafeSquash u) {last session : UndoState} {stack : List UndoState}
    (hstack : u.undoStack = last :: session :: stack) :
    List.Forall₂ (Lags.AgreeSince session.ctime) (g.cutOldValues last).1
      (u.cutOldValues last).1 := by
  refine (hlag.cutOldValues last).1.agree fun old' hold' old hold hboth hle => ?_
  have hcovers := (hlag.beforeSession last).covers.mpr (hsafe last session stack hstack old hold hle)
  obtain ⟨removed, removedRest, snaps, hremoved, newest, hbefore⟩ :=
    h.newest (hlag.undoStack.trans hstack)
  obtain ⟨olds₁, oldRest₁, removed₁, removedRest₁, -, holds₁, -, session₁, hend₁, -⟩ := hbefore.layer
  -- the part of the session before is cut from what the last session leaves
  have hcut : (g.beforeSession last).cutOldValues session = (olds₁, oldRest₁) := by
    refine UndoIndex.cutOldValues_eq holds₁ ?_ hend₁
    have hsub : (g.cutOldValues last).2.Sublist g.oldValues := by
      unfold UndoIndex.cutOldValues
      cases last.oldValuesEnd with
      | none => exact List.nil_sublist _
      | some addr => exact List.dropWhile_sublist _
    exact h.store.addr_nodup.sublist (hsub.map _)
  rw [UndoIndex.Covers, hcut, ← hboth.current] at hcovers
  have hsome : ∀ old ∈ (g.cutOldValues last).1, (g.content.vals old.current).isSome :=
    fun old hold => by
      simpa [g.content_vals] using h.store.old_isSome newest hremoved old hold
  exact (newest.old_touched session₁ hsome hold').mpr hcovers

/-! ## The two lists -/

namespace UndoIndex

/-- The undo stack and the old values of a table. -/
def undoLists (u : UndoIndex V) : List UndoState × List (OldNode V) := (u.undoStack, u.oldValues)

theorem undoLists_emplace (u : UndoIndex V) (value : V) :
    (u.emplace value).2.undoLists = u.undoLists := by
  unfold emplace
  dsimp only
  split <;> rfl

/-- A refused `emplace` leaves the table alone. -/
theorem emplace_error {value : V} {e : String} (hop : (u.emplace value).1 = .error e) :
    (u.emplace value).2 = u := by
  unfold emplace at hop ⊢
  dsimp only at hop ⊢
  split at hop
  · rfl
  · cases hop

theorem undoLists_assign (u : UndoIndex V) (p : Nat) (value : V) :
    (u.assign p value).undoLists = u.undoLists := by
  unfold assign
  split <;> rfl

theorem undoLists_onRemove (u : UndoIndex V) (p : Nat) :
    (u.onRemove p).2.undoLists = u.undoLists := by
  unfold onRemove
  split
  · split <;> rfl
  · rfl

theorem undoLists_remove (u : UndoIndex V) (p : Nat) : (u.remove p).undoLists = u.undoLists := by
  rw [remove_eq]
  have herase := undoLists_onRemove
    { u with byId := u.byId.erase p, secondary := eraseImpl p u.secondary } p
  split <;> exact herase

/-- A modification adds at most the backup of a row that the newest session has not
touched. -/
theorem undoLists_onModify (u : UndoIndex V) (p : Nat) :
    ((u.onModify p).1 = false ∧ (u.onModify p).2.undoLists = u.undoLists) ∨
      ((u.onModify p).1 = true ∧ ∃ old, (u.onModify p).2.undoLists = (u.undoStack, old :: u.oldValues) ∧
        ∀ s, u.undoStack.head? = some s → old.mtime < s.ctime) := by
  unfold onModify
  split
  · next s stack node hstack hnode =>
    split
    · exact .inl ⟨rfl, rfl⟩
    · next hnot =>
      refine .inr ⟨rfl, _, rfl, fun s' hs' => ?_⟩
      obtain rfl : s = s' := by
        rw [hstack] at hs'
        exact Option.some.inj hs'
      exact Nat.not_le.mp hnot
  · exact .inl ⟨rfl, rfl⟩

end UndoIndex

theorem Dated.of_lists {v : UndoIndex V} (h : Dated u.undoStack u.oldValues)
    (hlists : v.undoLists = u.undoLists) : Dated v.undoStack v.oldValues := by
  obtain ⟨hstack, holds⟩ := Prod.mk.inj hlists
  rw [hstack, holds]
  exact h

theorem Dated.modify (h : Dated u.undoStack u.oldValues) (p : Nat) (m : V → V) :
    Dated (u.modify p m).2.undoStack (u.modify p m).2.oldValues := by
  unfold UndoIndex.modify
  split
  · exact h
  · next node hnode =>
    have hcases := u.undoLists_onModify p
    dsimp only
    generalize (u.onModify p).1 = backup at hcases ⊢
    generalize (u.onModify p).2 = v at hcases ⊢
    have hassign := v.undoLists_assign p (m node.item.value)
    have hmodified : Dated v.undoStack v.oldValues := by
      rcases hcases with ⟨-, hv⟩ | ⟨-, old, hv, hold⟩
      · exact h.of_lists hv
      · obtain ⟨hstack, holds⟩ := Prod.mk.inj hv
        rw [hstack, holds]
        exact h.push old hold
    split
    · exact hmodified.of_lists hassign
    · next secondary _ =>
      split
      · next hbackup =>
        -- the backup that this call made is the head again
        obtain ⟨hflag, -⟩ | ⟨-, old, hv, -⟩ := hcases
        · rw [hflag] at hbackup
          cases hbackup
        · have hrevert := UndoIndex.undoLists_assign
            { v.assign p (m node.item.value) with secondary } p node.item.value
          obtain ⟨hstack, holds⟩ := Prod.mk.inj ((hrevert.trans hassign).trans hv)
          simp only [hstack, holds, List.tail_cons]
          exact h
      · exact hmodified.of_lists ((UndoIndex.undoLists_remove _ p).trans hassign)

/-! ## Operations -/

namespace Shadowed

theorem addr_nodup (h : Shadowed comps u t) : (u.oldValues.map OldNode.addr).Nodup := by
  obtain ⟨g, href, hlag⟩ := h.shadow
  rw [← hlag.olds.addrs]
  exact href.store.addr_nodup

theorem rows (h : Shadowed comps u t) : u.rows = t.current.rows := by
  obtain ⟨g, href, hlag⟩ := h.shadow
  rw [← hlag.rows, href.store.rows_eq, href.current]

theorem revision (h : Shadowed comps u t) : u.revision = t.revision := by
  obtain ⟨g, href, hlag⟩ := h.shadow
  rw [← hlag.revision, href.revision]

/-- The next id is free. -/
theorem free (h : Shadowed comps u t) : u.heap u.nextId = none := by
  obtain ⟨g, href, hlag⟩ := h.shadow
  cases hu : u.heap u.nextId with
  | none => rfl
  | some n =>
    obtain ⟨n', hn', -⟩ := hlag.heap.some hu
    have hlt := (href.store.node _ n' hn').lt_next
    rw [hlag.nextId] at hlt
    exact absurd hlt (Nat.lt_irrefl _)

/-- A row that is found is visible and has the id it was looked up by. -/
theorem find (h : Shadowed comps u t) {id : Nat} {obj : Object V} (hobj : u.find id = some obj) :
    obj.id = id ∧ id ∈ u.byId := by
  obtain ⟨g, href, hlag⟩ := h.shadow
  have hid := hobj
  rw [← hlag.find, href.store.find_eq] at hid
  obtain ⟨v, -, rfl⟩ := Option.map_eq_some_iff.mp hid
  rw [UndoIndex.find] at hobj
  split at hobj
  · next hmem => exact ⟨rfl, hmem⟩
  · cases hobj

theorem emplace (h : Shadowed comps u t) (value : V) :
    ∃ current, Shadowed comps (u.emplace value).2 { t with current } := by
  obtain ⟨⟨g, href, hlag⟩, hdated⟩ := h
  obtain ⟨hresult, hlag'⟩ := hlag.emplace value
  have hdated' := hdated.of_lists (u.undoLists_emplace value)
  cases hop : (g.emplace value).1 with
  | ok p => exact ⟨_, ⟨_, (href.emplace (Prod.ext hop rfl)).1, hlag'⟩, hdated'⟩
  | error e =>
    have hsame := UndoIndex.emplace_error hop
    exact ⟨t.current, ⟨g, href, hsame ▸ hlag'⟩, hdated'⟩

/-- **Modify**, refused or not. -/
theorem modify (h : Shadowed comps u t) {p : Nat} (hp : p ∈ u.byId) (m : V → V)
    (hsafe : SafeModify u p) :
    ∃ current, Shadowed comps (u.modify p m).2 { t with current } := by
  obtain ⟨⟨g, href, hlag⟩, hdated⟩ := h
  have hp' : p ∈ g.byId := hlag.byId ▸ hp
  -- what the call does to the shadow, and that it does the same to the table
  obtain ⟨g', current, href', hlag'⟩ := href.modify_attempt hp' m
  have hmodified := (hlag.modify m (hsafe.agreeAt href hlag hp')).2
  exact ⟨current, ⟨g', href', hlag'.trans hmodified⟩, hdated.modify p m⟩

theorem remove (h : Shadowed comps u t) {p : Nat} (hp : p ∈ u.byId) :
    Shadowed comps (u.remove p) { t with current := t.current.remove p } := by
  obtain ⟨⟨g, href, hlag⟩, hdated⟩ := h
  have hp' : p ∈ g.byId := hlag.byId ▸ hp
  exact ⟨⟨_, href.remove hp', hlag.remove p⟩, hdated.of_lists (u.undoLists_remove p)⟩

theorem addSession (h : Shadowed comps u t) : Shadowed comps u.addSession t.startSession := by
  obtain ⟨⟨g, href, hlag⟩, hdated⟩ := h
  refine ⟨⟨_, href.addSession, hlag.addSession⟩, ?_⟩
  show Dated (_ :: u.undoStack) ([] ++ u.oldValues)
  exact .cons (by simp) rfl hdated

/-- **Undo**. -/
theorem undo (h : Shadowed comps u t) : Shadowed comps u.undo t.undo := by
  have hnodup := h.addr_nodup
  obtain ⟨⟨g, href, hlag⟩, hdated⟩ := h
  refine ⟨⟨_, href.undo, hlag.undo fun s stack hstack => (hdated.cut hnodup hstack).1⟩, ?_⟩
  unfold UndoIndex.undo
  split
  · exact hdated
  · next s stack hstack => exact (hdated.cut hnodup hstack).2

/-- **Squash**. -/
theorem squash (h : Shadowed comps u t) (hsafe : SafeSquash u) :
    Shadowed comps u.squash t.squash := by
  have hnodup := h.addr_nodup
  obtain ⟨⟨g, href, hlag⟩, hdated⟩ := h
  refine ⟨⟨_, href.squash, hlag.squash fun last session stack hstack =>
    hsafe.agreeSince href hlag hstack⟩, ?_⟩
  unfold UndoIndex.squash
  match hstack : u.undoStack with
  | [] =>
    simp only [UndoIndex.squashFast, hstack]
    exact .nil _
  | [_] =>
    simp only [UndoIndex.squashFast, hstack]
    exact .nil _
  | last :: session :: stack =>
    obtain ⟨front, rest, hrest, hrecent, hend, hdeep⟩ := (hdated.cut hnodup hstack).2.uncons
    have hkept := compressOld_recent session.ctime u.heap (u.cutOldValues last).1
    have hcompressed : (u.compressImpl session last).undoStack = last :: session :: stack ∧
        (u.compressImpl session last).oldValues =
          ((UndoIndex.compressOld session.ctime u.heap (u.cutOldValues last).1).2 ++ front) ++
            rest := by
      unfold UndoIndex.compressImpl
      simp only [foldl_disposeNode, hrest, List.append_assoc]
      exact ⟨hstack, trivial⟩
    simp only [UndoIndex.squashFast, hcompressed.1]
    rw [hcompressed.2]
    exact .cons (List.forall_mem_append.mpr ⟨hkept, hrecent⟩) hend hdeep

/-- **Commit**. -/
theorem commit (h : Shadowed comps u t) (r : Int) : Shadowed comps (u.commit r) (t.commit r) := by
  have hnodup := h.addr_nodup
  obtain ⟨⟨g, href, hlag⟩, hdated⟩ := h
  refine ⟨⟨_, href.commit r, hlag.commit r⟩, ?_⟩
  unfold UndoIndex.commit
  dsimp only
  split
  · exact .nil _
  · next hne =>
    split
    · split
      · next oldest holdest =>
        obtain ⟨front, rest, holds, hend, htail⟩ := hdated.truncate holdest
        have hkept : (u.revision - min r u.revision).toNat - 1 + 1 =
            (u.revision - min r u.revision).toNat := by omega
        rw [hkept] at htail
        simp only [UndoIndex.dispose, UndoIndex.cutOldValues_eq holds hnodup hend,
          foldl_disposeNode]
        exact htail
      · exact hdated
    · exact hdated

end Shadowed

end Microchain.Chainbase
