import Mathlib.Data.Fintype.Card
import Microchain.Graphql.Selection

/-!
# Paging through a connection (`usePagedQuery` in `ReactSubchain.tsx`)

A client asks for the first page, then for the next one with the `endCursor` of the
last, until `hasNextPage` is false; or it starts from the last page and goes
backwards. The container may change between two requests.

The pages a client receives are those of keyset pagination over the keys in range
(`readForward_pages`, `readBackward_pages`), the cursors in between being decoded to
the keys they were made from. So the results of `Lib/Keyset.lean` are results about
every run of a client.
-/

namespace Microchain.Graphql

open Eosio Lib

/-! ## The client -/

namespace PagedQuery

/-- `first()` -/
def first (pageSize : UInt32) : PageArgs := { first := some pageSize }

/-- `last()` -/
def last (pageSize : UInt32) : PageArgs := { last := some pageSize }

/-- `next()` -/
def next (pageSize : UInt32) (pageInfo : PageInfo) : PageArgs :=
  { first := some pageSize, after := some pageInfo.endCursor }

/-- `previous()` -/
def previous (pageSize : UInt32) (pageInfo : PageInfo) : PageArgs :=
  { last := some pageSize, before := some pageInfo.startCursor }

end PagedQuery

variable {κ α ν : Type}

/-- The pages a client receives if `requests[i]` is the container at its request `i`.
It asks with `args`, and as long as there is `more` with the arguments of `turn`. -/
def readPages (S : Schema κ α ν) (range : RangeArgs κ) (more : PageInfo → Bool)
    (turn : PageInfo → PageArgs) :
    PageArgs → List (Container κ α) → Except String (List (Connection ν))
  | _, [] => .ok []
  | args, c :: later => do
    let conn ← makeConnection c S range args
    if more conn.pageInfo then
      let conns ← readPages S range more turn (turn conn.pageInfo) later
      .ok (conn :: conns)
    else .ok [conn]

/-- Page by page from the front. -/
def readForward (S : Schema κ α ν) (range : RangeArgs κ) (pageSize : UInt32)
    (requests : List (Container κ α)) : Except String (List (Connection ν)) :=
  readPages S range PageInfo.hasNextPage (PagedQuery.next pageSize) (PagedQuery.first pageSize)
    requests

/-- Page by page from the back. -/
def readBackward (S : Schema κ α ν) (range : RangeArgs κ) (pageSize : UInt32)
    (requests : List (Container κ α)) : Except String (List (Connection ν)) :=
  readPages S range PageInfo.hasPreviousPage (PagedQuery.previous pageSize)
    (PagedQuery.last pageSize) requests

/-- The last page received says that there are no more. -/
def done (more : PageInfo → Bool) (conns : List (Connection ν)) : Bool :=
  conns.getLast?.any (!more ·.pageInfo)

/-! ## Runs are runs of keyset pagination -/

section Runs

variable {S : Schema κ α ν}

/-- One argument for both directions: if each request of a direction is a page of
keyset pagination over `rows`, and its cursor is that of the page's last key, then the
pages of a run are those of keyset pagination. -/
theorem readPages_eq {range : RangeArgs κ} {more : PageInfo → Bool} {turn : PageInfo → PageArgs}
    {lt : κ → κ → Bool} {n : Nat} (hn : 0 < n) {rows : Container κ α → List κ}
    {keys : Connection ν → List κ} {cursorOf : PageInfo → Bytes} (argsOf : Option Bytes → PageArgs)
    (hturn : ∀ pageInfo, turn pageInfo = argsOf (some (cursorOf pageInfo)))
    {requests : List (Container κ α)}
    (hsorted : ∀ c ∈ requests, Sorted lt (rows c))
    (hpage : ∀ c ∈ requests, ∀ at_ atCursor, keyFromHex S.key atCursor = .ok at_ →
      ∃ conn, makeConnection c S range (argsOf atCursor) = .ok conn ∧
        keys conn = Keyset.page lt n at_ (rows c) ∧
        more conn.pageInfo = Keyset.more lt n at_ (rows c) ∧
        ∀ k, (keys conn).getLast? = some k → cursorOf conn.pageInfo = cursor S.key k) :
    ∀ at_ atCursor, keyFromHex S.key atCursor = .ok at_ →
      ∃ conns, readPages S range more turn (argsOf atCursor) requests = .ok conns ∧
        conns.map keys = Keyset.pages lt n at_ (requests.map rows) ∧
        done more conns = Keyset.finished lt n at_ (requests.map rows) := by
  induction requests with
  | nil =>
    intro at_ atCursor _
    exact ⟨[], rfl, rfl, rfl⟩
  | cons c later ih =>
    intro at_ atCursor hat
    obtain ⟨conn, hconn, hkeys, hmore, hcursor⟩ := hpage c List.mem_cons_self at_ atCursor hat
    rw [readPages, hconn, List.map_cons, Keyset.pages, Keyset.finished, ← hkeys, ← hmore]
    show ∃ conns, (if more conn.pageInfo then _ else _) = _ ∧ _
    by_cases hnext : more conn.pageInfo
    · -- the cursor of the page decodes to its last key
      rw [hmore] at hnext
      obtain ⟨last, -, hget, -⟩ := Keyset.page_getLast hn (hsorted c List.mem_cons_self) hnext
      rw [← hkeys] at hget
      have hlast : keyFromHex S.key (some (cursorOf conn.pageInfo)) = .ok (some last) := by
        rw [hcursor last hget, keyFromHex_cursor]
      obtain ⟨conns, hconns, hpages, hdone⟩ :=
        ih (fun d hd => hsorted d (List.mem_cons_of_mem _ hd))
          (fun d hd => hpage d (List.mem_cons_of_mem _ hd)) (some last) _ hlast
      rw [← hmore] at hnext
      refine ⟨conn :: conns, ?_, ?_, ?_⟩
      · rw [if_pos hnext, hturn, hconns]
        rfl
      · rw [if_pos hnext, hget, ← hpages, List.map_cons]
      · rw [if_pos hnext, hget, ← hdone, done, done]
        cases conns with
        | nil => simp [hnext]
        | cons d ds => rw [List.getLast?_cons_cons]
    · -- no further page: the client is done
      refine ⟨[conn], ?_, ?_, ?_⟩
      · rw [if_neg hnext]
      · rw [if_neg hnext]
        rfl
      · rw [if_neg hnext]
        simpa [done] using hnext

theorem Container.Ordered.keysIn_sorted {c : Container κ α} (h : c.Ordered S)
    (range : RangeArgs κ) : Sorted S.key.less (c.keysIn S range) :=
  h.sorted.sublist List.filter_sublist

theorem Container.Ordered.keysIn_reverse_sorted {c : Container κ α} (h : c.Ordered S)
    (range : RangeArgs κ) :
    Sorted (fun a b => S.key.less b a) (c.keysIn S range).reverse :=
  List.pairwise_reverse.mpr (h.keysIn_sorted range)

/-- **Reading forward is keyset pagination.** -/
theorem readForward_pages {n : UInt32} (hn : 0 < n) (range : RangeArgs κ)
    {requests : List (Container κ α)} (h : ∀ c ∈ requests, c.Ordered S) :
    ∃ conns, readForward S range n requests = .ok conns ∧
      conns.map (·.keys S) =
        Keyset.pages S.key.less n.toNat none (requests.map (·.keysIn S range)) ∧
      done PageInfo.hasNextPage conns =
        Keyset.finished S.key.less n.toNat none (requests.map (·.keysIn S range)) :=
  readPages_eq (UInt32.lt_iff_toNat_lt.mp hn) (fun after => { first := some n, after })
    (fun _ => rfl) (fun c hc => (h c hc).keysIn_sorted range)
    (fun c hc _ _ hafter => makeConnection_first (h c hc) range n hafter) none none rfl

/-- **Reading backward is keyset pagination in the opposite order**, each page read
from its end. -/
theorem readBackward_pages {n : UInt32} (hn : 0 < n) (range : RangeArgs κ)
    {requests : List (Container κ α)} (h : ∀ c ∈ requests, c.Ordered S) :
    ∃ conns, readBackward S range n requests = .ok conns ∧
      conns.map (fun conn => (conn.keys S).reverse) =
        Keyset.pages (fun a b => S.key.less b a) n.toNat none
          (requests.map fun c => (c.keysIn S range).reverse) ∧
      done PageInfo.hasPreviousPage conns =
        Keyset.finished (fun a b => S.key.less b a) n.toNat none
          (requests.map fun c => (c.keysIn S range).reverse) :=
  readPages_eq (UInt32.lt_iff_toNat_lt.mp hn) (fun before => { last := some n, before })
    (fun _ => rfl)
    (fun c hc => (h c hc).keysIn_reverse_sorted range)
    (fun c hc _ _ hbefore => makeConnection_last (h c hc) range n hbefore) none none rfl

/-! ## What a client receives -/

/-- The keys a client has received from some requests, `lt` being the order in which it
reads. -/
structure Received (S : Schema κ α ν) (range : RangeArgs κ) (lt : κ → κ → Bool)
    [DecidableEq κ] (requests : List (Container κ α)) (received : List κ) (finished : Bool) :
    Prop where
  increasing : Sorted lt received
  inRange : ∀ k ∈ received, range.contains S.key k
  complete : finished → ∀ k, range.contains S.key k → (∀ c ∈ requests, k ∈ c.keys S) →
    received.count k = 1

/-- What the pages of keyset pagination bring. -/
theorem Received.of_pages [DecidableEq κ] {range : RangeArgs κ} {lt : κ → κ → Bool}
    (hlt : StrictWeak lt) {n : Nat} (hn : 0 < n) {rows : Container κ α → List κ}
    {requests : List (Container κ α)} (hsorted : ∀ c ∈ requests, Sorted lt (rows c))
    (hrows : ∀ c k, k ∈ rows c ↔ k ∈ c.keys S ∧ range.contains S.key k)
    {pages : List (List κ)} (hpages : pages = Keyset.pages lt n none (requests.map rows)) :
    Received S range lt (requests.take pages.length) pages.flatten
      (Keyset.finished lt n none (requests.map rows)) := by
  have hsorted' : ∀ r ∈ requests.map rows, Sorted lt r := by
    intro r hr
    obtain ⟨c, hc, rfl⟩ := List.mem_map.mp hr
    exact hsorted c hc
  subst hpages
  have hincreasing : Sorted lt (Keyset.pages lt n none (requests.map rows)).flatten :=
    Keyset.pages_sorted hlt hn hsorted'
  refine ⟨hincreasing, fun k hk => ?_, fun hfin k hk hall => ?_⟩
  · obtain ⟨r, hr, hkr⟩ := Keyset.mem_of_mem_pages hk
    obtain ⟨c, -, rfl⟩ := List.mem_map.mp hr
    exact ((hrows c k).mp hkr).2
  · refine List.count_eq_one_of_mem (hincreasing.nodup hlt) ?_
    refine Keyset.pages_complete hn hsorted' hfin k (by simp) fun r hr => ?_
    rw [← List.map_take] at hr
    obtain ⟨c, hc, rfl⟩ := List.mem_map.mp hr
    exact (hrows c k).mpr ⟨hall c hc, hk⟩

theorem Container.mem_keysIn {c : Container κ α} {range : RangeArgs κ} {k : κ} :
    k ∈ c.keysIn S range ↔ k ∈ c.keys S ∧ range.contains S.key k := List.mem_filter

/-- What a client that reads forward receives. -/
theorem readForward_received [DecidableEq κ] {n : UInt32} (hn : 0 < n) (range : RangeArgs κ)
    {requests : List (Container κ α)} (h : ∀ c ∈ requests, c.Ordered S) :
    ∃ conns, readForward S range n requests = .ok conns ∧
      Received S range S.key.less (requests.take conns.length) (conns.flatMap (·.keys S))
        (done PageInfo.hasNextPage conns) := by
  obtain ⟨conns, hconns, hpages, hdone⟩ := readForward_pages hn range h
  refine ⟨conns, hconns, ?_⟩
  have hreceived := Received.of_pages S.key.strictWeak (UInt32.lt_iff_toNat_lt.mp hn)
    (fun c hc => (h c hc).keysIn_sorted range) (fun c k => Container.mem_keysIn) hpages
  rwa [List.length_map, ← hdone, ← List.flatMap_def] at hreceived

/-- What a client that reads backward receives. -/
theorem readBackward_received [DecidableEq κ] {n : UInt32} (hn : 0 < n) (range : RangeArgs κ)
    {requests : List (Container κ α)} (h : ∀ c ∈ requests, c.Ordered S) :
    ∃ conns, readBackward S range n requests = .ok conns ∧
      Received S range (fun a b => S.key.less b a) (requests.take conns.length)
        (conns.flatMap fun conn => (conn.keys S).reverse)
        (done PageInfo.hasPreviousPage conns) := by
  obtain ⟨conns, hconns, hpages, hdone⟩ := readBackward_pages hn range h
  refine ⟨conns, hconns, ?_⟩
  have hreceived := Received.of_pages S.key.strictWeak.flip (UInt32.lt_iff_toNat_lt.mp hn)
    (fun c hc => (h c hc).keysIn_reverse_sorted range)
    (fun c k => List.mem_reverse.trans Container.mem_keysIn) hpages
  rwa [List.length_map, ← hdone, ← List.flatMap_def] at hreceived

/-- Keyset pagination over finitely many keys comes to an end. -/
theorem finished_of_card [Fintype κ] {lt : κ → κ → Bool} (hlt : StrictWeak lt) {n : Nat}
    (hn : 0 < n) {tables : List (List κ)} (hsorted : ∀ r ∈ tables, Sorted lt r)
    (hcard : Fintype.card κ < n * tables.length) : Keyset.finished lt n none tables := by
  rcases Keyset.finished_or_full with hfin | hfull
  · exact hfin
  · have hincreasing : Sorted lt (Keyset.pages lt n none tables).flatten :=
      Keyset.pages_sorted hlt hn hsorted
    have hle := (hincreasing.nodup hlt).length_le_card
    rw [hfull] at hle
    omega

/-- **A client is done after finitely many requests**, whatever happens in between. -/
theorem readForward_done [Fintype κ] {n : UInt32} (hn : 0 < n) (range : RangeArgs κ)
    {requests : List (Container κ α)} (h : ∀ c ∈ requests, c.Ordered S)
    (hcard : Fintype.card κ < n.toNat * requests.length) :
    ∃ conns, readForward S range n requests = .ok conns ∧ done PageInfo.hasNextPage conns := by
  obtain ⟨conns, hconns, -, hdone⟩ := readForward_pages hn range h
  refine ⟨conns, hconns, ?_⟩
  rw [hdone]
  refine finished_of_card S.key.strictWeak (UInt32.lt_iff_toNat_lt.mp hn) (fun r hr => ?_)
    (by rwa [List.length_map])
  obtain ⟨c, hc, rfl⟩ := List.mem_map.mp hr
  exact (h c hc).keysIn_sorted range

/-- **Cursor paging loses and repeats nothing.** Whatever the container holds at each
request, the keys received increase strictly (decrease, reading backward) and are in
range; and a client that was told that there are no more pages has received every key
in range that was there at all its requests, exactly once. -/
theorem paging_exact [DecidableEq κ] {n : UInt32} (hn : 0 < n) (range : RangeArgs κ)
    {requests : List (Container κ α)} (h : ∀ c ∈ requests, c.Ordered S) :
    (∃ conns, readForward S range n requests = .ok conns ∧
      Received S range S.key.less (requests.take conns.length) (conns.flatMap (·.keys S))
        (done PageInfo.hasNextPage conns)) ∧
    ∃ conns, readBackward S range n requests = .ok conns ∧
      Received S range (fun a b => S.key.less b a) (requests.take conns.length)
        (conns.flatMap fun conn => (conn.keys S).reverse)
        (done PageInfo.hasPreviousPage conns) :=
  ⟨readForward_received hn range h, readBackward_received hn range h⟩

end Runs

/-- Numbers, as their own keys and nodes. -/
def numberSchema : Schema UInt32 UInt32 UInt32 := ⟨uint32Key, id, id, id, fun _ => rfl⟩

/-- Two requests for two numbers from 3 on, with a removal and an insertion in between. -/
def numberRequests : List (Container UInt32 UInt32) :=
  [.orderedSet numberSchema [2, 5, 7, 8], .orderedSet numberSchema [5, 6, 8]]

theorem paging_exact_example :
    (∃ conns, readForward numberSchema { ge := some 3 } 2 numberRequests = .ok conns ∧
      Received numberSchema { ge := some 3 } numberSchema.key.less (numberRequests.take conns.length)
        (conns.flatMap (·.keys numberSchema)) (done PageInfo.hasNextPage conns)) ∧
    ∃ conns, readBackward numberSchema { ge := some 3 } 2 numberRequests = .ok conns ∧
      Received numberSchema { ge := some 3 } (fun a b => numberSchema.key.less b a)
        (numberRequests.take conns.length)
        (conns.flatMap fun conn => (conn.keys numberSchema).reverse)
        (done PageInfo.hasPreviousPage conns) := by
  have hordered : ∀ c ∈ numberRequests, c.Ordered numberSchema := by
    intro c hc
    rcases List.mem_cons.mp hc with rfl | hc
    · exact Container.orderedSet_ordered (by decide)
    · obtain rfl := List.mem_singleton.mp hc
      exact Container.orderedSet_ordered (by decide)
  have hn : (0 : UInt32) < 2 := by decide
  exact paging_exact hn _ hordered

/-- The forward run of the example: 6 was inserted behind the cursor, 7 removed after it
was sent. -/
example : (readForward numberSchema { ge := some 3 } 2 numberRequests).map
    (·.map (·.keys numberSchema)) = .ok [[5, 7], [8]] := by
  decide +kernel

end Microchain.Graphql
