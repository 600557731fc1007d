import Mathlib.Data.List.Basic

/-!
# A list that is copied by splices

A source has a list whose end it may take off again, but for the first places, which are
settled. It sends elements with their places, and goes back where it takes something off.
A copy puts an element at its place and drops what it had there and behind, unless the
element is there already. So a copy may be ahead of what has been sent to it: it may hold
what it has got over an earlier connection.

- `Copy`: what a copy is, whether or not something is sent to it;
- `Stream`: what is on its way to it;
- `Stream.start`, `Stream.extend`, `Stream.cut`, `Stream.settle`, `Stream.send`: the source;
- `Stream.deliver`: **the copy**;
- `Stream.caughtUp`: what it has when all has arrived.
-/

namespace Microchain.Lib

universe u

/-- An element with its place, and how many places are settled. -/
structure Splice (α : Type u) where
  place : Nat
  value : α
  settled : Nat

variable {α : Type u}

namespace Splice

/-- The list up to the place, and the element. -/
def onto (m : Splice α) (l : List α) : List α := l.take m.place ++ [m.value]

/-- What has been sent, once all of it has been read. -/
def readAll (l : List α) (queue : List (Splice α)) : List α := queue.foldl (fun l m => m.onto l) l

theorem readAll_append (l : List α) (queue : List (Splice α)) (m : Splice α) :
    readAll l (queue ++ [m]) = m.onto (readAll l queue) := by
  rw [readAll, List.foldl_append]
  rfl

/-- A list that agrees up to the place. -/
theorem onto_eq (m : Splice α) {l copy : List α} (hl : l <+: copy) (hplace : m.place ≤ l.length) :
    m.onto l = m.onto copy := by
  obtain ⟨rest, rfl⟩ := hl
  rw [onto, onto, List.take_append_of_le_length hplace]

/-- The element is there already. -/
theorem onto_isPrefix (m : Splice α) {copy : List α} (h : copy[m.place]? = some m.value) :
    m.onto copy <+: copy := by
  obtain ⟨hlt, hvalue⟩ := List.getElem?_eq_some_iff.mp h
  refine ⟨copy.drop (m.place + 1), ?_⟩
  rw [onto, ← hvalue, ← List.take_succ_eq_append_getElem hlt, List.take_append_drop]

end Splice

section

variable (P : List α → Prop) (chain : List α)

/-- Each element fits behind what comes before it, makes a list that the source has had,
and agrees with the source in the places that it says are settled. -/
def Sound : List α → List (Splice α) → Prop
  | _, [] => True
  | l, m :: queue => m.place ≤ l.length ∧ P (m.onto l) ∧ (m.onto l).take m.settled <+: chain ∧
      Sound (m.onto l) queue

/-- A copy, of which the first `told` places are settled. -/
structure Copy (settled told : Nat) (copy : List α) : Prop where
  seen : P copy
  told_le : told ≤ settled
  agrees : copy.take told <+: chain

/-- What is on its way to a copy that has read `view` of it; the source sends the element
at `next` next. -/
structure Stream (settled told : Nat) (copy view : List α) (queue : List (Splice α))
    (next : Nat) : Prop where
  behind : view <+: copy
  told : ∀ m ∈ queue, told ≤ m.settled
  settled : ∀ m ∈ queue, m.settled ≤ settled
  ordered : queue.Pairwise fun m m' => m.settled ≤ m'.settled
  sound : Sound P chain view queue
  next_le : next ≤ chain.length
  sent : chain.take next <+: Splice.readAll view queue

end

variable {P : List α → Prop} {chain chain' copy copy' view : List α} {settled told : Nat}
  {queue : List (Splice α)} {m : Splice α} {next : Nat}

/-! ## The source changes -/

theorem Sound.append : ∀ {view : List α} {queue : List (Splice α)}, Sound P chain view queue →
    m.place ≤ (Splice.readAll view queue).length → P (m.onto (Splice.readAll view queue)) →
    (m.onto (Splice.readAll view queue)).take m.settled <+: chain →
    Sound P chain view (queue ++ [m])
  | _, [], _, hplace, hseen, hagrees => ⟨hplace, hseen, hagrees, trivial⟩
  | _, _ :: _, ⟨hplace', hseen', hagrees', h⟩, hplace, hseen, hagrees =>
    ⟨hplace', hseen', hagrees', h.append hplace hseen hagrees⟩

/-- What agrees in settled places agrees with any list that keeps these. -/
theorem isPrefix_of_settled {l : List α} {n : Nat} (h : l.take n <+: chain) (hle : n ≤ settled)
    (hkept : chain.take settled <+: chain') : l.take n <+: chain' := by
  refine List.IsPrefix.trans ?_ hkept
  refine List.prefix_of_prefix_length_le h (List.take_prefix _ _) ?_
  have hlen := h.length_le
  rw [List.length_take] at hlen ⊢
  rw [List.length_take]
  omega

theorem Sound.keep : ∀ {view : List α} {queue : List (Splice α)}, Sound P chain view queue →
    (∀ m ∈ queue, m.settled ≤ settled) → chain.take settled <+: chain' →
    Sound P chain' view queue
  | _, [], _, _, _ => trivial
  | _, m :: _, ⟨hplace, hseen, hagrees, h⟩, hsettled, hkept =>
    ⟨hplace, hseen, isPrefix_of_settled hagrees (hsettled m (List.mem_cons_self ..)) hkept,
      h.keep (fun m hm => hsettled m (List.mem_cons_of_mem _ hm)) hkept⟩

theorem Copy.keep (h : Copy P chain settled told copy) (hkept : chain.take settled <+: chain') :
    Copy P chain' settled told copy where
  seen := h.seen
  told_le := h.told_le
  agrees := isPrefix_of_settled h.agrees h.told_le hkept

theorem Copy.settle (h : Copy P chain settled told copy) {settled' : Nat}
    (hle : settled ≤ settled') : Copy P chain settled' told copy where
  seen := h.seen
  told_le := Nat.le_trans h.told_le hle
  agrees := h.agrees

/-- **A new connection.** -/
theorem Stream.start (P : List α → Prop) (chain : List α) (settled told : Nat) (copy : List α) :
    Stream P chain settled told copy [] [] 0 where
  behind := List.nil_prefix
  told := nofun
  settled := nofun
  ordered := .nil
  sound := trivial
  next_le := Nat.zero_le _
  sent := List.prefix_rfl

/-- **The source gets an element.** -/
theorem Stream.extend (h : Stream P chain settled told copy view queue next) (a : α) :
    Stream P (chain ++ [a]) settled told copy view queue next where
  behind := h.behind
  told := h.told
  settled := h.settled
  ordered := h.ordered
  sound := h.sound.keep h.settled ((List.take_prefix _ _).trans (List.prefix_append _ _))
  next_le := Nat.le_trans h.next_le (List.prefix_append chain [a]).length_le
  sent := by
    rw [List.take_append_of_le_length h.next_le]
    exact h.sent

/-- **The source takes its end off**, and goes back. -/
theorem Stream.cut (h : Stream P chain settled told copy view queue next) {n : Nat}
    (hn : settled ≤ n) : Stream P (chain.take n) settled told copy view queue (min next n) where
  behind := h.behind
  told := h.told
  settled := h.settled
  ordered := h.ordered
  sound := by
    refine h.sound.keep h.settled ?_
    rw [← Nat.min_eq_left hn, ← List.take_take]
    exact List.take_prefix _ _
  next_le := by
    rw [List.length_take]
    have := h.next_le
    omega
  sent := by
    rw [List.take_take, Nat.min_assoc, Nat.min_self]
    refine List.IsPrefix.trans ?_ h.sent
    rw [Nat.min_comm, ← List.take_take]
    exact List.take_prefix _ _

/-- **More is settled.** -/
theorem Stream.settle (h : Stream P chain settled told copy view queue next) {settled' : Nat}
    (hle : settled ≤ settled') : Stream P chain settled' told copy view queue next where
  behind := h.behind
  told := h.told
  settled m hm := Nat.le_trans (h.settled m hm) hle
  ordered := h.ordered
  sound := h.sound
  next_le := h.next_le
  sent := h.sent

/-- The lists that the source has had, with their beginnings. -/
def ClosedUnderPrefix (P : List α → Prop) : Prop := ∀ l l', l <+: l' → P l' → P l

/-- **The source sends** its next element. -/
theorem Stream.send (h : Stream P chain settled told copy view queue next)
    (hclosed : ClosedUnderPrefix P) (hseen : P chain) (htold : told ≤ settled)
    (hnext : next < chain.length) :
    Stream P chain settled told copy view (queue ++ [⟨next, chain[next], settled⟩]) (next + 1) := by
  have hlen : next ≤ (Splice.readAll view queue).length := by
    have hle := h.sent.length_le
    rwa [List.length_take, Nat.min_eq_left h.next_le] at hle
  have htake : (Splice.readAll view queue).take next = chain.take next := by
    obtain ⟨rest, hrest⟩ := h.sent
    rw [← hrest, List.take_append_of_le_length (by rw [List.length_take]; omega), List.take_take,
      Nat.min_self]
  have honto : Splice.onto ⟨next, chain[next], settled⟩ (Splice.readAll view queue) =
      chain.take (next + 1) := by
    rw [List.take_succ_eq_append_getElem hnext]
    show (Splice.readAll view queue).take next ++ [chain[next]] = _
    rw [htake]
  constructor
  · exact h.behind
  · intro m hm
    rcases List.mem_append.mp hm with hm | hm
    · exact h.told m hm
    · rw [List.mem_singleton.mp hm]
      exact htold
  · intro m hm
    rcases List.mem_append.mp hm with hm | hm
    · exact h.settled m hm
    · exact Nat.le_of_eq (congrArg Splice.settled (List.mem_singleton.mp hm))
  · refine List.pairwise_append.mpr ⟨h.ordered, List.pairwise_singleton _ _, fun m hm m' hm' => ?_⟩
    rw [List.mem_singleton.mp hm']
    exact h.settled m hm
  · refine h.sound.append hlen ?_ ?_
    · rw [honto]
      exact hclosed _ _ (List.take_prefix _ _) hseen
    · rw [honto]
      exact (List.take_prefix _ _).trans (List.take_prefix _ _)
  · exact hnext
  · exact ⟨[], by rw [List.append_nil, Splice.readAll_append, honto]⟩

/-! ## The copy -/

/-- What is settled is there already. -/
theorem Stream.settled_same (h : Stream P chain settled told copy view (m :: queue) next)
    (hcopy : Copy P chain settled told copy) (hplace : m.place < told)
    (htold : told ≤ copy.length) : copy[m.place]? = some m.value := by
  obtain ⟨hle, -, hagrees, -⟩ := h.sound
  have hsettled := Nat.lt_of_lt_of_le hplace (h.told m (List.mem_cons_self ..))
  have hvalue : ((m.onto view).take m.settled)[m.place]? = some m.value := by
    rw [List.getElem?_take_of_lt hsettled, Splice.onto,
      List.getElem?_append_right (List.length_take_le _ _), List.length_take, Nat.min_eq_left hle,
      Nat.sub_self]
    rfl
  obtain ⟨hlt, hvalue⟩ := List.getElem?_eq_some_iff.mp hvalue
  have hlt' : m.place < (copy.take told).length := by
    rw [List.length_take]
    omega
  have hsame : copy[m.place] = m.value := by
    have hcopyValue := hcopy.agrees.getElem hlt'
    rw [List.getElem_take] at hcopyValue
    rw [hcopyValue, ← hvalue]
    exact (hagrees.getElem hlt).symm
  rw [List.getElem?_eq_getElem (Nat.lt_of_lt_of_le hplace htold), hsame]

/-- **The copy gets the next element**: what it has is a list that the source has had, and
what it takes for settled is settled. -/
theorem Stream.deliver (h : Stream P chain settled told copy view (m :: queue) next)
    (hcopy : Copy P chain settled told copy) {told' : Nat}
    (hput : copy[m.place]? = some m.value ∧ copy' = copy ∧ told' = told ∨
      copy' = m.onto copy ∧ told ≤ told' ∧ told' ≤ max told m.settled) :
    Copy P chain settled told' copy' ∧
      Stream P chain settled told' copy' (m.onto view) queue next := by
  obtain ⟨hle, hseen, hagrees, hsound⟩ := h.sound
  obtain ⟨hordered, hrest⟩ := List.pairwise_cons.mp h.ordered
  have hmem := List.mem_cons_self (a := m) (l := queue)
  have honto := m.onto_eq h.behind hle
  have hstream : m.onto view <+: copy' → (∀ m' ∈ queue, told' ≤ m'.settled) →
      Stream P chain settled told' copy' (m.onto view) queue next := fun hbehind htold =>
    ⟨hbehind, htold, fun m' hm' => h.settled m' (List.mem_cons_of_mem _ hm'), hrest, hsound,
      h.next_le, h.sent⟩
  rcases hput with ⟨hthere, rfl, rfl⟩ | ⟨rfl, -, htold⟩
  · refine ⟨hcopy, hstream ?_ fun m' hm' => h.told m' (List.mem_cons_of_mem _ hm')⟩
    rw [honto]
    exact m.onto_isPrefix hthere
  · rw [Nat.max_eq_right (h.told m hmem)] at htold
    constructor
    · rw [← honto]
      refine ⟨hseen, Nat.le_trans htold (h.settled m hmem), ?_⟩
      rw [← Nat.min_eq_left htold, ← List.take_take]
      exact (List.take_prefix _ _).trans hagrees
    · exact hstream (honto ▸ List.prefix_rfl) fun m' hm' => Nat.le_trans htold (hordered m' hm')

/-- **When all has arrived** the copy has the list of the source, and what it may have behind
that belongs to a list that the source has had. -/
theorem Stream.caughtUp (h : Stream P chain settled told copy view [] chain.length) :
    chain <+: copy := by
  have hsent := h.sent
  rw [List.take_length] at hsent
  exact hsent.trans h.behind

end Microchain.Lib
