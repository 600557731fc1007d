import Microchain.Lib.OrderedList

/-!
# Keyset pagination

A client reads a table page by page. It remembers the last row it received and
asks for the next `n` rows behind it, until the server says that no row is left.
The table may change between two requests.

- `pages_sorted`: the rows of all pages are strictly increasing;
- `mem_of_mem_pages`: each of them was in the table of some request;
- `pages_complete`: once the client has finished, it has received every row that
  was in the table at all of its requests;
- `finished_or_full`: an unfinished client has received `n` rows a request.

Rows are compared by a strict weak order. Reading backwards is reading forwards
under the opposite order, so nothing here is stated twice.
-/

namespace Microchain.Lib.Keyset

universe u

variable {α : Type u} (lt : α → α → Bool)

/-- The rows behind the cursor. -/
def rest (after : Option α) (rows : List α) : List α := rows.filter fun x => after.all (lt · x)

/-- The first `n` rows behind the cursor. -/
def page (n : Nat) (after : Option α) (rows : List α) : List α := (rest lt after rows).take n

/-- There are rows behind the page. -/
def more (n : Nat) (after : Option α) (rows : List α) : Bool :=
  decide (n < (rest lt after rows).length)

/-- The pages a client receives if the table holds `tables[i]` at its request `i`. It
goes on from the last row of a page, and stops at a page with nothing behind it. -/
def pages (n : Nat) : Option α → List (List α) → List (List α)
  | _, [] => []
  | after, rows :: later =>
    page lt n after rows ::
      if more lt n after rows then pages n (page lt n after rows).getLast? later else []

/-- The client has received a page with nothing behind it. -/
def finished (n : Nat) : Option α → List (List α) → Bool
  | _, [] => false
  | after, rows :: later =>
    if more lt n after rows then finished n (page lt n after rows).getLast? later else true

variable {lt}

theorem mem_rest {after : Option α} {rows : List α} {x : α} :
    x ∈ rest lt after rows ↔ x ∈ rows ∧ ∀ a ∈ after, lt a x := by
  rw [rest, List.mem_filter]
  cases after <;> simp

theorem rest_sorted {after : Option α} {rows : List α} (h : Sorted lt rows) :
    Sorted lt (rest lt after rows) := h.sublist List.filter_sublist

/-- A page with rows behind it has a last row, and that row separates what was
sent from what was not. -/
theorem page_getLast {n : Nat} (hn : 0 < n) {after : Option α} {rows : List α}
    (hrows : Sorted lt rows) (hmore : more lt n after rows) :
    ∃ last ∈ page lt n after rows, (page lt n after rows).getLast? = some last ∧
      (∀ x ∈ page lt n after rows, x = last ∨ lt x last) ∧
      ∀ x ∈ rest lt after rows, x ∈ page lt n after rows ∨ lt last x := by
  have hlen : n < (rest lt after rows).length := of_decide_eq_true hmore
  have hne : page lt n after rows ≠ [] := by
    intro hnil
    rcases List.take_eq_nil_iff.mp hnil with h0 | h0
    · omega
    · rw [h0] at hlen
      exact absurd hlen (Nat.not_lt_zero n)
  have hsplit : page lt n after rows ++ (rest lt after rows).drop n = rest lt after rows :=
    List.take_append_drop n _
  have hsorted : Sorted lt (rest lt after rows) := rest_sorted hrows
  rw [← hsplit] at hsorted
  obtain ⟨hpage, -, hcross⟩ := List.pairwise_append.mp hsorted
  refine ⟨_, List.getLast_mem hne, List.getLast?_eq_some_getLast hne, fun x hx => ?_,
    fun x hx => ?_⟩
  · have hcut := List.dropLast_append_getLast hne
    rw [← hcut] at hpage hx
    rcases List.mem_append.mp hx with hx | hx
    · exact Or.inr ((List.pairwise_append.mp hpage).2.2 x hx _ (List.mem_singleton_self _))
    · exact Or.inl (List.mem_singleton.mp hx)
  · rw [← hsplit] at hx
    rcases List.mem_append.mp hx with hx | hx
    · exact Or.inl hx
    · exact Or.inr (hcross _ (List.getLast_mem hne) x hx)

/-- Every received row is behind the cursor the client started from. -/
theorem after_of_mem_pages (hlt : StrictWeak lt) {n : Nat} (hn : 0 < n) :
    ∀ {tables : List (List α)} {after : Option α}, (∀ rows ∈ tables, Sorted lt rows) →
      ∀ x ∈ (pages lt n after tables).flatten, ∀ a ∈ after, lt a x := by
  intro tables
  induction tables with
  | nil =>
    intro after _ x hx
    simp [pages] at hx
  | cons rows later ih =>
    intro after hsorted x hx a ha
    rw [pages, List.flatten_cons, List.mem_append] at hx
    rcases hx with hx | hx
    · exact (mem_rest.mp (List.mem_of_mem_take hx)).2 a ha
    · split at hx
      · next hmore =>
        -- the cursor of the next request is behind `a`, and `x` is behind that cursor
        obtain ⟨last, hlast, hget, -⟩ := page_getLast hn (hsorted _ List.mem_cons_self) hmore
        have halast : lt a last := (mem_rest.mp (List.mem_of_mem_take hlast)).2 a ha
        refine hlt.trans halast (ih (fun r hr => hsorted r (List.mem_cons_of_mem _ hr)) x hx last ?_)
        rw [hget]
        rfl
      · simp at hx

/-- **The rows of all pages are strictly increasing.** -/
theorem pages_sorted (hlt : StrictWeak lt) {n : Nat} (hn : 0 < n) :
    ∀ {tables : List (List α)} {after : Option α}, (∀ rows ∈ tables, Sorted lt rows) →
      Sorted lt (pages lt n after tables).flatten := by
  intro tables
  induction tables with
  | nil =>
    intro after _
    exact List.Pairwise.nil
  | cons rows later ih =>
    intro after hsorted
    have hlater : ∀ r ∈ later, Sorted lt r := fun r hr => hsorted r (List.mem_cons_of_mem _ hr)
    have hrows := hsorted _ List.mem_cons_self
    have hpage : Sorted lt (page lt n after rows) :=
      (rest_sorted hrows).sublist (List.take_sublist _ _)
    rw [pages, List.flatten_cons]
    refine List.pairwise_append.mpr ⟨hpage, ?_, ?_⟩
    · split
      · exact ih hlater
      · exact List.Pairwise.nil
    · intro x hx y hy
      split at hy
      · next hmore =>
        -- between two pages the last row of the first separates
        obtain ⟨last, -, hget, hmax, -⟩ := page_getLast hn hrows hmore
        have hy' : lt last y := after_of_mem_pages hlt hn hlater y hy last (by rw [hget]; rfl)
        rcases hmax x hx with rfl | hxl
        · exact hy'
        · exact hlt.trans hxl hy'
      · simp at hy

/-- Every received row was in the table of a request. -/
theorem mem_of_mem_pages {n : Nat} : ∀ {tables : List (List α)} {after : Option α} {x : α},
    x ∈ (pages lt n after tables).flatten → ∃ rows ∈ tables, x ∈ rows := by
  intro tables
  induction tables with
  | nil =>
    intro after x hx
    simp [pages] at hx
  | cons rows later ih =>
    intro after x hx
    rw [pages, List.flatten_cons, List.mem_append] at hx
    rcases hx with hx | hx
    · exact ⟨rows, List.mem_cons_self, (mem_rest.mp (List.mem_of_mem_take hx)).1⟩
    · split at hx
      · obtain ⟨r, hr, hxr⟩ := ih hx
        exact ⟨r, List.mem_cons_of_mem _ hr, hxr⟩
      · simp at hx

/-- **A client that has finished has received every row that was there at all its
requests**: such a row is either received, or still behind the cursor. -/
theorem pages_complete {n : Nat} (hn : 0 < n) :
    ∀ {tables : List (List α)} {after : Option α}, (∀ rows ∈ tables, Sorted lt rows) →
      finished lt n after tables →
      ∀ x, (∀ a ∈ after, lt a x) →
        (∀ rows ∈ tables.take (pages lt n after tables).length, x ∈ rows) →
        x ∈ (pages lt n after tables).flatten := by
  intro tables
  induction tables with
  | nil =>
    intro after _ hfin
    simp [finished] at hfin
  | cons rows later ih =>
    intro after hsorted hfin x hafter hall
    rw [pages, List.length_cons, List.take_succ_cons] at hall
    have hrest : x ∈ rest lt after rows := mem_rest.mpr ⟨hall rows List.mem_cons_self, hafter⟩
    rw [pages, List.flatten_cons, List.mem_append]
    rw [finished] at hfin
    by_cases hmore : more lt n after rows
    · rw [if_pos hmore] at hfin hall ⊢
      obtain ⟨last, -, hget, -, hsep⟩ := page_getLast hn (hsorted _ List.mem_cons_self) hmore
      -- `x` is on this page, or the cursor it leaves is in front of `x`
      rcases hsep x hrest with hx | hx
      · exact Or.inl hx
      · right
        refine ih (fun r hr => hsorted r (List.mem_cons_of_mem _ hr)) hfin x ?_
          fun r hr => hall r (List.mem_cons_of_mem _ hr)
        rw [hget]
        rintro a ha
        obtain rfl := Option.some.inj ha
        exact hx
    · left
      have hle : (rest lt after rows).length ≤ n := by simpa [more] using hmore
      rw [page, List.take_of_length_le hle]
      exact hrest

/-- As long as the client has not finished, every request brings `n` rows. -/
theorem finished_or_full {n : Nat} : ∀ {tables : List (List α)} {after : Option α},
    finished lt n after tables ∨
      (pages lt n after tables).flatten.length = n * tables.length := by
  intro tables
  induction tables with
  | nil =>
    intro after
    exact Or.inr rfl
  | cons rows later ih =>
    intro after
    rw [finished, pages]
    by_cases hmore : more lt n after rows
    · rw [if_pos hmore, if_pos hmore]
      refine Or.imp_right (fun hlen => ?_) ih
      have hle : n < (rest lt after rows).length := of_decide_eq_true hmore
      rw [List.flatten_cons, List.length_append, hlen, page, List.length_take,
        Nat.min_eq_left (Nat.le_of_lt hle), List.length_cons, Nat.mul_succ]
      omega
    · rw [if_neg hmore]
      exact Or.inl rfl

end Microchain.Lib.Keyset
