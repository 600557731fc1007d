import Mathlib.Data.List.Nodup
import Mathlib.Data.Option.Basic

/-!
# Doubly linked lists

Nodes with a link each way, and a link to the first. A null link is taken for a node of its
own in front of the first and behind the last, so that the ends of a list are joined to
their neighbours as all nodes are.

- `Links.Joined`: consecutive nodes are linked both ways.
- `Links.Lists`: the links are those of a list.
- `Lists.walk`: following the links gives the list.
- `Lists.push`, `Lists.unlink`: what has to change when a node is put in front or taken out,
  if nothing else does.
-/

namespace Microchain.Lib

universe u

/-- The links between nodes. -/
structure Links (α : Type u) where
  first : Option α
  next : α → Option α
  prev : α → Option α

namespace Links

variable {α : Type u} {L L' : Links α}

/-- The node behind one, or behind the null in front of the list. -/
def after (L : Links α) : Option α → Option α
  | none => L.first
  | some a => L.next a

/-- `x` is linked back to from `y`; the null behind the list has no link. -/
def Back (L : Links α) (x : Option α) : Option α → Prop
  | none => True
  | some a => L.prev a = x

/-- Consecutive nodes are linked both ways. -/
def Joined (L : Links α) : List (Option α) → Prop
  | x :: y :: l => L.after x = y ∧ L.Back x y ∧ L.Joined (y :: l)
  | _ => True

theorem joined_append {x : Option α} {xs ys : List (Option α)} :
    L.Joined (xs ++ x :: ys) ↔ L.Joined (xs ++ [x]) ∧ L.Joined (x :: ys) := by
  induction xs with
  | nil => exact ⟨fun h => ⟨trivial, h⟩, fun h => h.2⟩
  | cons a xs ih =>
    cases xs with
    | nil =>
      constructor
      · rintro ⟨hafter, hback, h⟩
        exact ⟨⟨hafter, hback, trivial⟩, h⟩
      · rintro ⟨⟨hafter, hback, -⟩, h⟩
        exact ⟨hafter, hback, h⟩
    | cons b xs =>
      constructor
      · rintro ⟨hafter, hback, h⟩
        obtain ⟨hleft, hright⟩ := ih.mp h
        exact ⟨⟨hafter, hback, hleft⟩, hright⟩
      · rintro ⟨⟨hafter, hback, hleft⟩, hright⟩
        exact ⟨hafter, hback, ih.mpr ⟨hleft, hright⟩⟩

/-- Only the links forward of all but the last matter, and the links back of all but the
first. -/
theorem Joined.congr {l : List (Option α)} (h : L.Joined l)
    (hafter : ∀ x ∈ l.dropLast, L'.after x = L.after x)
    (hprev : ∀ a, some a ∈ l.tail → L'.prev a = L.prev a) : L'.Joined l := by
  induction l with
  | nil => trivial
  | cons x l ih =>
    cases l with
    | nil => trivial
    | cons y l =>
      obtain ⟨hxy, hback, h⟩ := h
      refine ⟨?_, ?_, ih h (fun z hz => hafter z (List.mem_cons_of_mem x hz))
        (fun a ha => hprev a (List.mem_cons_of_mem y ha))⟩
      · rw [hafter x (List.mem_cons_self ..), hxy]
      · cases y with
        | none => trivial
        | some b =>
          show L'.prev b = x
          rw [hprev b (List.mem_cons_self ..)]
          exact hback

/-- The links are those of the list. -/
structure Lists (L : Links α) (l : List α) : Prop where
  joined : L.Joined (none :: (l.map some ++ [none]))
  nodup : l.Nodup

theorem lists_nil (next prev : α → Option α) : (⟨none, next, prev⟩ : Links α).Lists [] :=
  ⟨⟨rfl, trivial, trivial⟩, List.nodup_nil⟩

/-- Nodes that are not in the list can be changed. -/
theorem Lists.congr {l : List α} (h : L.Lists l) (hfirst : L'.first = L.first)
    (hnext : ∀ a ∈ l, L'.next a = L.next a) (hprev : ∀ a ∈ l, L'.prev a = L.prev a) :
    L'.Lists l := by
  refine ⟨h.joined.congr (fun x hx => ?_) fun a ha => ?_, h.nodup⟩
  · cases x with
    | none => exact hfirst
    | some a =>
      have hmem : some a ∈ none :: l.map some := by
        rwa [← List.cons_append, List.dropLast_concat] at hx
      obtain ⟨b, hb, hba⟩ := List.mem_map.mp ((List.mem_cons.mp hmem).resolve_left
        (Option.some_ne_none a))
      exact hnext a (Option.some.inj hba ▸ hb)
  · rcases List.mem_append.mp ha with ha | ha
    · obtain ⟨b, hb, hba⟩ := List.mem_map.mp ha
      exact hprev a (Option.some.inj hba ▸ hb)
    · exact absurd (List.mem_singleton.mp ha) (Option.some_ne_none a)

/-- The first node. -/
theorem Lists.first {l : List α} (h : L.Lists l) : L.first = l.head? := by
  cases l with
  | nil => exact h.joined.1
  | cons a l => exact h.joined.1

/-- The nodes from one on, at most `n`. -/
def walk (L : Links α) : ℕ → Option α → List α
  | _, none => []
  | 0, some _ => []
  | n + 1, some a => a :: L.walk n (L.next a)

/-- **Following the links** gives the list. -/
theorem Lists.walk {l : List α} (h : L.Lists l) {n : ℕ} (hn : l.length ≤ n) :
    L.walk n L.first = l := by
  have hfrom : ∀ (x : Option α) (l : List α) (n : ℕ), L.Joined (x :: (l.map some ++ [none])) →
      l.length ≤ n → L.walk n (L.after x) = l := by
    intro x l
    induction l generalizing x with
    | nil =>
      intro n hj _
      obtain ⟨hafter, -, -⟩ := hj
      rw [hafter, Links.walk]
    | cons a l ih =>
      intro n hj hn
      obtain ⟨hafter, -, hj⟩ := hj
      obtain ⟨n, rfl⟩ := Nat.exists_eq_succ_of_ne_zero (Nat.ne_zero_of_lt hn)
      rw [hafter, Links.walk]
      exact congrArg (a :: ·) (ih (some a) n hj (Nat.le_of_succ_le_succ hn))
  exact hfrom none l n h.joined hn

/-- **Put a node in front.** -/
theorem Lists.push {l : List α} {a : α} (h : L.Lists l) (ha : a ∉ l)
    (hfirst : L'.first = some a) (hnext : L'.next a = L.first) (hprev : L'.prev a = none)
    (hback : ∀ b, L.first = some b → L'.prev b = some a)
    (hnext' : ∀ b ∈ l, L'.next b = L.next b)
    (hprev' : ∀ b ∈ l, L.first ≠ some b → L'.prev b = L.prev b) : L'.Lists (a :: l) := by
  refine ⟨⟨hfirst, hprev, ?_⟩, List.nodup_cons.mpr ⟨ha, h.nodup⟩⟩
  cases l with
  | nil => exact ⟨hnext.trans h.first, trivial, trivial⟩
  | cons b l =>
    have hb : L.first = some b := h.first
    obtain ⟨hnot, hnodup⟩ := List.nodup_cons.mp h.nodup
    refine ⟨hnext.trans hb, hback b hb, ?_⟩
    refine Joined.congr h.joined.2.2 (fun x hx => ?_) fun c hc => ?_
    · have hmem : x ∈ (b :: l).map some := by
        rwa [show some b :: (l.map some).append [none] = (b :: l).map some ++ [none] from rfl,
          List.dropLast_concat] at hx
      obtain ⟨c, hc, rfl⟩ := List.mem_map.mp hmem
      exact hnext' c hc
    · rcases List.mem_append.mp hc with hc | hc
      · obtain ⟨d, hd, hdc⟩ := List.mem_map.mp hc
        obtain rfl := Option.some.inj hdc
        refine hprev' d (List.mem_cons_of_mem b hd) fun hsame => ?_
        rw [hb] at hsame
        exact hnot (Option.some.inj hsame ▸ hd)
      · exact absurd (List.mem_singleton.mp hc) (Option.some_ne_none c)

/-- The links around a node, in the sequence that includes the nulls. -/
theorem Lists.split {xs ys : List α} {a : α} (h : L.Lists (xs ++ a :: ys)) :
    ∃ pre post, none :: xs.map some = pre ++ [L.prev a] ∧
      ys.map some ++ [none] = L.next a :: post ∧
      L.Joined (pre ++ [L.prev a]) ∧ L.Joined (L.next a :: post) := by
  have hj := h.joined
  rw [List.map_append, List.map_cons, List.append_assoc, List.cons_append,
    ← List.cons_append] at hj
  obtain ⟨pre, x, hpre⟩ : ∃ pre x, none :: xs.map some = pre ++ [x] :=
    ⟨_, _, (List.dropLast_append_getLast (List.cons_ne_nil none (xs.map some))).symm⟩
  obtain ⟨z, post, hpost⟩ : ∃ z post, ys.map some ++ [none] = z :: post := by
    cases ys with
    | nil => exact ⟨none, [], rfl⟩
    | cons y ys => exact ⟨some y, ys.map some ++ [none], rfl⟩
  rw [hpre, hpost, List.append_assoc] at hj
  obtain ⟨hleft, -, hprev, hnext, -, hright⟩ := joined_append.mp hj
  obtain rfl : L.prev a = x := hprev
  obtain rfl : L.next a = z := hnext
  exact ⟨pre, post, hpre, hpost, hleft, hright⟩

/-- The neighbours of a node are other nodes of the list. -/
theorem Lists.neighbours {l : List α} {a b : α} (h : L.Lists l) (ha : a ∈ l)
    (hb : L.next a = some b ∨ L.prev a = some b) : b ≠ a ∧ b ∈ l := by
  obtain ⟨xs, ys, rfl⟩ := List.append_of_mem ha
  obtain ⟨pre, post, hpre, hpost, -, -⟩ := h.split
  obtain ⟨-, hnodup, hdisjoint⟩ := List.nodup_append.mp h.nodup
  rcases hb with hb | hb
  · have hmem : some b ∈ ys.map some ++ [none] := by
      rw [hpost, hb]
      exact List.mem_cons_self ..
    have hbys : b ∈ ys := by
      refine (List.mem_map_of_injective (Option.some_injective α)).mp
        ((List.mem_append.mp hmem).resolve_right fun hnone => ?_)
      exact Option.some_ne_none b (List.mem_singleton.mp hnone)
    exact ⟨fun hsame => (List.nodup_cons.mp hnodup).1 (hsame ▸ hbys),
      List.mem_append_right xs (List.mem_cons_of_mem a hbys)⟩
  · have hmem : some b ∈ none :: xs.map some := by
      rw [hpre, hb]
      exact List.mem_append_right pre (List.mem_singleton_self _)
    have hbxs : b ∈ xs := (List.mem_map_of_injective (Option.some_injective α)).mp
      ((List.mem_cons.mp hmem).resolve_left (Option.some_ne_none b))
    exact ⟨fun hsame => hdisjoint b hbxs a (List.mem_cons_self ..) hsame,
      List.mem_append_left _ hbxs⟩

/-- The first node is the one that is not linked back. -/
theorem Lists.first_eq_some_iff {l : List α} {a : α} (h : L.Lists l) (ha : a ∈ l) :
    L.first = some a ↔ L.prev a = none := by
  obtain ⟨xs, ys, rfl⟩ := List.append_of_mem ha
  cases xs with
  | nil =>
    have hprev : L.prev a = none := h.joined.2.1
    exact ⟨fun _ => hprev, fun _ => h.first⟩
  | cons x xs =>
    constructor
    · intro hfirst
      obtain rfl : x = a := Option.some.inj (h.first.symm.trans hfirst)
      exact absurd (List.mem_append_right xs (List.mem_cons_self ..))
        (List.nodup_cons.mp h.nodup).1
    · intro hprev
      obtain ⟨pre, post, hpre, -, -, -⟩ := h.split
      rw [hprev] at hpre
      have hlast := congrArg List.getLast? hpre
      rw [List.getLast?_concat, List.map_cons, List.getLast?_cons_cons, ← List.map_cons,
        List.getLast?_map] at hlast
      obtain ⟨y, -, hy⟩ := Option.map_eq_some_iff.mp hlast
      exact absurd hy (Option.some_ne_none y)

/-- **Take a node out.** -/
theorem Lists.unlink {xs ys : List α} {a : α} (h : L.Lists (xs ++ a :: ys))
    (hafter : L'.after (L.prev a) = L.next a) (hback : L'.Back (L.prev a) (L.next a))
    (hfirst : L.prev a ≠ none → L'.first = L.first)
    (hnext : ∀ b ∈ xs ++ ys, L.prev a ≠ some b → L'.next b = L.next b)
    (hprev : ∀ b ∈ xs ++ ys, L.next a ≠ some b → L'.prev b = L.prev b) :
    L'.Lists (xs ++ ys) := by
  obtain ⟨pre, post, hpre, hpost, hleft, hright⟩ := h.split
  have hnodup : (xs ++ ys).Nodup :=
    h.nodup.sublist ((List.sublist_cons_self a ys).append_left xs)
  refine ⟨?_, hnodup⟩
  have hseq : none :: ((xs ++ ys).map some ++ [none]) = pre ++ L.prev a :: (L.next a :: post) := by
    rw [List.map_append, List.append_assoc, hpost, ← List.cons_append, hpre, List.append_assoc]
    rfl
  -- the neighbours are different from all other nodes
  have hxs : ∀ b, some b ∈ pre ++ [L.prev a] → b ∈ xs := by
    intro b hb
    rw [← hpre] at hb
    exact (List.mem_map_of_injective (Option.some_injective α)).mp
      ((List.mem_cons.mp hb).resolve_left (Option.some_ne_none b))
  have hys : ∀ b, some b ∈ L.next a :: post → b ∈ ys := by
    intro b hb
    rw [← hpost] at hb
    refine (List.mem_map_of_injective (Option.some_injective α)).mp
      ((List.mem_append.mp hb).resolve_right fun hnone => ?_)
    exact Option.some_ne_none b (List.mem_singleton.mp hnone)
  obtain ⟨hxnodup, hynodup, hdisjoint⟩ := List.nodup_append.mp hnodup
  have hprevNot : ∀ x ∈ pre, L.prev a ≠ x := by
    have hall : (none :: xs.map some).Nodup := by
      refine List.nodup_cons.mpr ⟨fun hmem => ?_, hxnodup.map (Option.some_injective α)⟩
      obtain ⟨b, -, hb⟩ := List.mem_map.mp hmem
      exact Option.some_ne_none b hb
    rw [hpre] at hall
    exact fun x hx hsame => (List.nodup_append.mp hall).2.2 x hx _
      (List.mem_singleton_self _) hsame.symm
  have hnextNot : L.next a ∉ post := by
    have hall : (ys.map some ++ [none]).Nodup := by
      refine List.Nodup.append (hynodup.map (Option.some_injective α)) (List.nodup_singleton none)
        fun x hx hnone => ?_
      obtain ⟨b, -, rfl⟩ := List.mem_map.mp hx
      exact Option.some_ne_none b (List.mem_singleton.mp hnone)
    rw [hpost] at hall
    exact (List.nodup_cons.mp hall).1
  have hprevYs : ∀ b ∈ ys, L.prev a ≠ some b := fun b hb hsame =>
    hdisjoint b (hxs b (hsame ▸ List.mem_append_right pre (List.mem_singleton_self _))) b hb rfl
  have hnextXs : ∀ b ∈ xs, L.next a ≠ some b := fun b hb hsame =>
    hdisjoint b hb b (hys b (hsame ▸ List.mem_cons_self ..)) rfl
  rw [hseq]
  refine joined_append.mpr ⟨hleft.congr (fun x hx => ?_) fun b hb => ?_, hafter, hback,
    hright.congr (fun x hx => ?_) fun b hb => ?_⟩
  · rw [List.dropLast_concat] at hx
    cases x with
    | none => exact hfirst (hprevNot none hx)
    | some b =>
      exact hnext b (List.mem_append_left ys (hxs b (List.mem_append_left _ hx)))
        (hprevNot _ hx)
  · have hbxs := hxs b (List.mem_of_mem_tail hb)
    exact hprev b (List.mem_append_left ys hbxs) (hnextXs b hbxs)
  · rw [← hpost, List.dropLast_concat] at hx
    obtain ⟨b, hb, rfl⟩ := List.mem_map.mp hx
    exact hnext b (List.mem_append_right xs hb) (hprevYs b hb)
  · have hmem : some b ∈ post := hb
    exact hprev b (List.mem_append_right xs (hys b (List.mem_cons_of_mem _ hmem)))
      fun hsame => hnextNot (hsame ▸ hmem)

end Links

end Microchain.Lib
