import Fiss.Schemes.Multi

/-! Range queries of a transaction that stages its writes (`memdb/txn.h`, `memdb/txn_2pl.cc`). The
    rows of a sorted table and the rows staged for insertion are both in key order; `MergedCursor`
    gives them out as one sequence and leaves out the rows staged for removal. It chooses between
    the two next rows by comparing the pointers to them, so a row is here what its address is,
    ordered as addresses are, and its key is a function of it. -/

namespace Fiss.Memdb
open List Bool Multi

/-- The orders a query may ask for. -/
inductive Order
  | ORD_ANY
  | ORD_ASC
  | ORD_DESC
  deriving DecidableEq, Repr

/-- The range queries of `Txn`. -/
inductive RangeQuery (κ : Type)
  | lt (smk : κ)
  | gt (smk : κ)
  | within (low high : κ)
  | all
  deriving DecidableEq, Repr

/-- A row pointer of a `table_row_pair`: a row with its key, or one of the two markers. -/
inductive RowMark (κ : Type)
  | ROW_MIN
  | row (key : κ)
  | ROW_MAX
  deriving DecidableEq, Repr

variable {τ ρ κ : Type} [LinearOrder τ] [LinearOrder κ]

/-- `table_row_pair::operator<`. -/
def pairLt (a b : τ × RowMark κ) : Bool :=
  if a.1 ≠ b.1 then a.1 < b.1
  else
    match a.2, b.2 with
    | .ROW_MIN, r => r ≠ .ROW_MIN
    | .ROW_MAX, _ => false
    | .row _, .ROW_MIN => false
    | .row _, .ROW_MAX => true
    | .row k, .row k' => k < k'

/-- A row staged for a table, as the staged inserts compare it. -/
def pairOf (key : ρ → κ) (p : τ × ρ) : τ × RowMark κ := (p.1, .row (key p.2))

/-- A sorted table: a multimap from keys to rows. -/
structure SortedTable (key : ρ → κ) where
  rows : List ρ
  sorted : rows.Pairwise fun a b => key a ≤ key b

/-- The staged inserts, a multiset under `table_row_pair::operator<`, and the staged removes. -/
structure Staged (τ : Type) [LinearOrder τ] (key : ρ → κ) where
  inserts : List (τ × ρ)
  sorted : inserts.Pairwise fun a b => pairLt (pairOf key b) (pairOf key a) = false
  removes : List (τ × ρ)

/-- The merged cursor: what the table's cursor and the staged inserts have still to give, in the
    direction of the query, and the rows it has looked at already. -/
structure MergedCursor (τ ρ : Type) where
  tbl : τ
  cursor : List ρ
  inserts : List ρ
  removes : List (τ × ρ)
  cached : Bool
  cachedNext : Option ρ
  nextCandidate : Option ρ

/-! ### The table's own cursors -/

namespace SortedTable
variable {key : ρ → κ} (t : SortedTable key)

/-- `rows_.lower_bound`: the first row whose key is not below. -/
def lowerBound (smk : κ) : ℕ := bound (fun r => key r < smk) t.rows

/-- `rows_.upper_bound`: the first row whose key is above. -/
def upperBound (smk : κ) : ℕ := bound (fun r => key r ≤ smk) t.rows

/-- What a cursor over the rows between two positions gives, backwards for `ORD_DESC`. -/
def cursor (i j : ℕ) (order : Order) : List ρ :=
  if order = .ORD_DESC then (between t.rows i j).reverse else between t.rows i j

def queryLt (smk : κ) (order : Order) : List ρ := t.cursor 0 (t.lowerBound smk) order

def queryGt (smk : κ) (order : Order) : List ρ := t.cursor (t.upperBound smk) t.rows.length order

def queryIn (low high : κ) (order : Order) : Option (List ρ) :=
  if low < high then some (t.cursor (t.upperBound low) (t.lowerBound high) order) else none

def all (order : Order) : List ρ := t.cursor 0 t.rows.length order

end SortedTable

/-! ### The merged cursor -/

namespace MergedCursor
variable [LinearOrder ρ] (c : MergedCursor τ ρ)

/-- The loop that takes rows from the table's cursor until one is not staged for removal. -/
def skipRemoved (tbl : τ) (removes : List (τ × ρ)) : List ρ → Option ρ × List ρ
  | [] => (none, [])
  | r :: rest => if (tbl, r) ∈ removes then skipRemoved tbl removes rest else (some r, rest)

/-- Give out the next staged row. -/
def takeInsert (i : ρ) (is : List ρ) : MergedCursor τ ρ :=
  { c with cached := true, cachedNext := some i, inserts := is }

/-- Give out the row of the table that was looked at. -/
def takeCandidate (r : ρ) : MergedCursor τ ρ :=
  { c with cached := true, cachedNext := some r, nextCandidate := none }

/-- `prefetch_next` once there is a candidate or the table's cursor is at its end. -/
def choose : Bool × MergedCursor τ ρ :=
  match c.nextCandidate, c.inserts with
  | none, [] => (false, c)
  | none, i :: is => (true, c.takeInsert i is)
  | some r, [] => (true, c.takeCandidate r)
  | some r, i :: is => (true, if r < i then c.takeCandidate r else c.takeInsert i is)

/-- Look for a candidate where there is none. -/
def refill : MergedCursor τ ρ :=
  match c.nextCandidate with
  | some _ => c
  | none =>
    let found := skipRemoved c.tbl c.removes c.cursor
    { c with nextCandidate := found.1, cursor := found.2 }

def prefetchNext : Option (Bool × MergedCursor τ ρ) :=
  if c.cached then none else some c.refill.choose

def hasNext : Option (Bool × MergedCursor τ ρ) :=
  if c.cached then some (true, c) else c.prefetchNext

/-- The cached row has been given out. -/
def consumed : MergedCursor τ ρ := { c with cached := false }

def next : Option (ρ × MergedCursor τ ρ) := do
  let c ← if c.cached then some c else
    match c.prefetchNext with
    | some (true, c) => some c
    | _ => none
  let r ← c.cachedNext
  some (r, c.consumed)

/-- A caller's loop `while (rs.has_next()) rs.next()`, for at most so many rounds. -/
def collect : ℕ → MergedCursor τ ρ → Option (List ρ)
  | 0, _ => none
  | n + 1, c => do
    let (more, c) ← c.hasNext
    if more then
      let (r, c) ← c.next
      let rs ← collect n c
      some (r :: rs)
    else some []

/-- The rows of the table still to come. -/
def pending : List ρ :=
  c.nextCandidate.toList ++ c.cursor.filter fun r => (c.tbl, r) ∉ c.removes

/-- Everything still to come, in the order of the choices. -/
def rest : List ρ := c.pending.merge c.inserts fun r i => decide (r < i)

/-- Every row the result set yields: a round for each row there is, and one to see the end. -/
def drain : Option (List ρ) :=
  c.collect (c.nextCandidate.toList.length + c.cursor.length + c.inserts.length + 1)

theorem skipRemoved_spec (tbl : τ) (removes : List (τ × ρ)) (rows : List ρ) :
    (skipRemoved tbl removes rows).1.toList ++
        (skipRemoved tbl removes rows).2.filter (fun r => (tbl, r) ∉ removes) =
      rows.filter fun r => (tbl, r) ∉ removes := by
  induction rows with
  | nil => rfl
  | cons r rest ih =>
    by_cases hr : (tbl, r) ∈ removes
    · rw [skipRemoved, if_pos hr, ih]
      simp [hr]
    · rw [skipRemoved, if_neg hr]
      simp [hr]

theorem skipRemoved_none {tbl : τ} {removes : List (τ × ρ)} {rows : List ρ}
    (h : (skipRemoved tbl removes rows).1 = none) : (skipRemoved tbl removes rows).2 = [] := by
  induction rows with
  | nil => rfl
  | cons r rest ih =>
    by_cases hr : (tbl, r) ∈ removes
    · rw [skipRemoved, if_pos hr] at h ⊢
      exact ih h
    · rw [skipRemoved, if_neg hr] at h
      cases h

@[simp] theorem pending_refill : c.refill.pending = c.pending := by
  rcases hc : c.nextCandidate with _ | r
  · simp only [refill, pending, hc, skipRemoved_spec]
    rfl
  · simp [refill, hc]

@[simp] theorem inserts_refill : c.refill.inserts = c.inserts := by
  unfold refill
  split <;> rfl

@[simp] theorem rest_refill : c.refill.rest = c.rest := by
  rw [rest, pending_refill, inserts_refill, rest]

@[simp] theorem rest_consumed : c.consumed.rest = c.rest := rfl

theorem pending_of_refill_none (h : c.refill.nextCandidate = none) : c.refill.pending = [] := by
  rcases hc : c.nextCandidate with _ | r
  · simp only [refill, hc] at h
    simp [refill, pending, hc, h, skipRemoved_none h]
  · simp [refill, hc] at h

theorem prefetchNext_spec (h : c.cached = false) :
    (c.rest = [] ∧ ∃ c', c.prefetchNext = some (false, c')) ∨
    ∃ r c', c.prefetchNext = some (true, c') ∧ c'.cached = true ∧ c'.cachedNext = some r ∧
      c.rest = r :: c'.rest := by
  have hpre : c.prefetchNext = some c.refill.choose := by simp [prefetchNext, h]
  rw [hpre, ← rest_refill c]
  rcases hcand : c.refill.nextCandidate with _ | r
  · have hpend := pending_of_refill_none c hcand
    rcases hins : c.refill.inserts with _ | ⟨i, is⟩
    · refine .inl ⟨?_, c.refill, by rw [choose, hcand, hins]⟩
      rw [rest, hpend, hins, nil_merge]
    · refine .inr ⟨i, c.refill.takeInsert i is, by rw [choose, hcand, hins], rfl, rfl, ?_⟩
      have hpend' : (c.refill.takeInsert i is).pending = [] := hpend
      rw [rest, hpend, hins, nil_merge, rest, hpend', nil_merge]
      rfl
  · have hpend : c.refill.pending = r :: pending (c.refill.takeCandidate r) := by
      simp [pending, hcand, takeCandidate]
    rcases hins : c.refill.inserts with _ | ⟨i, is⟩
    · refine .inr ⟨r, c.refill.takeCandidate r, by rw [choose, hcand, hins], rfl, rfl, ?_⟩
      have hins' : (c.refill.takeCandidate r).inserts = [] := hins
      rw [rest, hpend, hins, merge_right, rest, hins', merge_right]
    · by_cases hlt : r < i
      · refine .inr ⟨r, c.refill.takeCandidate r, by rw [choose, hcand, hins]; simp [hlt], rfl,
          rfl, ?_⟩
        have hins' : (c.refill.takeCandidate r).inserts = i :: is := hins
        rw [rest, hpend, hins, cons_merge_cons, if_pos (by simpa using hlt), rest, hins']
      · refine .inr ⟨i, c.refill.takeInsert i is, by rw [choose, hcand, hins]; simp [hlt], rfl,
          rfl, ?_⟩
        rw [rest, hpend, hins, cons_merge_cons, if_neg (by simpa using hlt), ← hpend]
        rfl

theorem collect_eq {n : ℕ} {c : MergedCursor τ ρ} (h : c.cached = false)
    (hn : c.rest.length < n) : c.collect n = some c.rest := by
  induction n generalizing c with
  | zero => exact absurd hn (Nat.not_lt_zero _)
  | succ n ih =>
    rcases prefetchNext_spec c h with ⟨hrest, c', hpre⟩ | ⟨r, c', hpre, hcached, hnext, hrest⟩
    · simp [collect, hasNext, h, hpre, hrest]
    · have hlen : c'.consumed.rest.length < n := by
        rw [hrest, length_cons] at hn
        rw [rest_consumed]
        omega
      have hrec := ih (c := c'.consumed) rfl hlen
      simp [collect, hasNext, next, h, hpre, hcached, hnext, hrec, hrest]

theorem drain_eq (h : c.cached = false) : c.drain = some c.rest := by
  refine collect_eq h (Nat.lt_succ_of_le ?_)
  rw [rest, length_merge, pending, length_append]
  have hfilter := length_filter_le (fun r => decide ((c.tbl, r) ∉ c.removes)) c.cursor
  omega

end MergedCursor

/-! ### The queries -/

namespace Staged
variable {key : ρ → κ} (s : Staged τ key)

/-- `inserts_.lower_bound`. -/
def lowerBound (needle : τ × RowMark κ) : ℕ :=
  bound (fun p => pairLt (pairOf key p) needle) s.inserts

/-- `inserts_.upper_bound`. -/
def upperBound (needle : τ × RowMark κ) : ℕ :=
  bound (fun p => !pairLt needle (pairOf key p)) s.inserts

/-- The merged cursor over a cursor of the table and the staged inserts between two positions. -/
def mergedCursor (tbl : τ) (cursor : List ρ) (i j : ℕ) (order : Order) : MergedCursor τ ρ :=
  let staged := (between s.inserts i j).map Prod.snd
  { tbl := tbl
    cursor := cursor
    inserts := if order = .ORD_DESC then staged.reverse else staged
    removes := s.removes
    cached := false
    cachedNext := none
    nextCandidate := none }

variable (tbl : τ) (t : SortedTable key)

def doQueryLt (smk : κ) (order : Order) : MergedCursor τ ρ :=
  s.mergedCursor tbl (t.queryLt smk order) (s.lowerBound (tbl, .ROW_MIN))
    (s.lowerBound (tbl, .row smk)) order

def doQueryGt (smk : κ) (order : Order) : MergedCursor τ ρ :=
  s.mergedCursor tbl (t.queryGt smk order) (s.upperBound (tbl, .row smk))
    (s.upperBound (tbl, .ROW_MAX)) order

def doQueryIn (low high : κ) (order : Order) : Option (MergedCursor τ ρ) :=
  (t.queryIn low high order).map fun cursor =>
    s.mergedCursor tbl cursor (s.upperBound (tbl, .row low)) (s.lowerBound (tbl, .row high)) order

def doAll (order : Order) : MergedCursor τ ρ :=
  s.mergedCursor tbl (t.all order) (s.lowerBound (tbl, .ROW_MIN)) (s.upperBound (tbl, .ROW_MAX))
    order

/-- The cursor a range query returns, when its checks pass. -/
def doRange (order : Order) : RangeQuery κ → Option (MergedCursor τ ρ)
  | .lt smk => some (s.doQueryLt tbl t smk order)
  | .gt smk => some (s.doQueryGt tbl t smk order)
  | .within low high => s.doQueryIn tbl t low high order
  | .all => some (s.doAll tbl t order)

/-- All rows of the result set of a range query. -/
def resultRows [LinearOrder ρ] (q : RangeQuery κ) (order : Order) : Option (List ρ) :=
  (s.doRange tbl t order q).bind MergedCursor.drain

end Staged

/-! ### What a query is to yield -/

/-- The keys a query asks for. -/
def RangeQuery.contains : RangeQuery κ → κ → Bool
  | .lt smk, k => k < smk
  | .gt smk, k => smk < k
  | .within low high, k => low < k && k < high
  | .all, _ => true

/-- The check a table makes on the two ends of a range. -/
def RangeQuery.Valid : RangeQuery κ → Prop
  | .within low high => low < high
  | _ => True

/-- The order of keys that is asked for. -/
def Order.le : Order → κ → κ → Prop
  | .ORD_ANY, _, _ => True
  | .ORD_ASC, k, k' => k ≤ k'
  | .ORD_DESC, k, k' => k' ≤ k

/-- A sequence in key order, turned to the order that is asked for. -/
def Order.direct (order : Order) (l : List ρ) : List ρ :=
  if order = .ORD_DESC then l.reverse else l

section Spec
variable [LinearOrder ρ] {key : ρ → κ} (s : Staged τ key) (tbl : τ) (t : SortedTable key)
  (q : RangeQuery κ)

/-- The rows of the table in the range that are not staged for removal. -/
def rowsInRange : List ρ :=
  t.rows.filter fun r => q.contains (key r) && decide ((tbl, r) ∉ s.removes)

/-- The rows staged for insertion into the table that are in the range. -/
def insertsInRange : List ρ :=
  (s.inserts.filter fun p => decide (p.1 = tbl) && q.contains (key p.2)).map Prod.snd

/-- Walking along the rows of the table and the staged rows side by side and passing the one with
    the lower address each time, that one never belongs after the other. -/
def PointersFollowKeys (order : Order) : Prop :=
  Multi.Agrees (fun a b => order.le (key a) (key b)) (fun r i => decide (r < i))
    (order.direct (rowsInRange s tbl t q)) (order.direct (insertsInRange s tbl q))

end Spec

theorem Order.trans (order : Order) {a b c : κ} (hab : order.le a b) (hbc : order.le b c) :
    order.le a c := by
  cases order with
  | ORD_ANY => trivial
  | ORD_ASC => exact le_trans hab hbc
  | ORD_DESC => exact le_trans hbc hab

theorem Order.pairwise_direct (order : Order) {key : ρ → κ} {l : List ρ}
    (h : l.Pairwise fun a b => key a ≤ key b) :
    (order.direct l).Pairwise fun a b => order.le (key a) (key b) := by
  cases order with
  | ORD_ANY => exact pairwise_of_forall fun _ _ => trivial
  | ORD_ASC => exact h
  | ORD_DESC => exact pairwise_reverse.mpr h

theorem Order.direct_perm (order : Order) (l : List ρ) : (order.direct l).Perm l := by
  unfold direct
  split
  · exact reverse_perm l
  · exact List.Perm.refl l

theorem Order.direct_filter (order : Order) (p : ρ → Bool) (l : List ρ) :
    (order.direct l).filter p = order.direct (l.filter p) := by
  unfold direct
  split
  · exact filter_reverse
  · rfl

/-- A marker or a key among the keys with a least and a greatest element added. -/
def markRank : RowMark κ → WithBot (WithTop κ)
  | .ROW_MIN => ⊥
  | .row k => ((k : WithTop κ) : WithBot (WithTop κ))
  | .ROW_MAX => ((⊤ : WithTop κ) : WithBot (WithTop κ))

def pairRank (p : τ × RowMark κ) : τ ×ₗ WithBot (WithTop κ) := toLex (p.1, markRank p.2)

theorem pairLt_eq (a b : τ × RowMark κ) : pairLt a b = decide (pairRank a < pairRank b) := by
  obtain ⟨t, x⟩ := a
  obtain ⟨u, y⟩ := b
  by_cases htu : t = u
  · subst htu
    have hmax (k : κ) : ((k : WithTop κ) : WithBot (WithTop κ)) < ⊤ :=
      WithBot.coe_lt_coe.mpr (WithTop.coe_lt_top k)
    cases x <;> cases y <;> simp [pairLt, pairRank, markRank, Prod.Lex.lt_iff, hmax]
  · simp [pairLt, pairRank, htu, Prod.Lex.lt_iff]

/-! ### The cursors hold what is in the range -/

namespace SortedTable
variable {key : ρ → κ} (t : SortedTable key)

theorem front_lt (k : κ) : Multi.Front (fun r => decide (key r < k)) t.rows :=
  front_of_rank t.sorted fun _ _ hab hb =>
    decide_eq_true (lt_of_le_of_lt hab (of_decide_eq_true hb))

theorem front_le (k : κ) : Multi.Front (fun r => decide (key r ≤ k)) t.rows :=
  front_of_rank t.sorted fun _ _ hab hb =>
    decide_eq_true (le_trans hab (of_decide_eq_true hb))

theorem cursor_bound {p q : ρ → Bool} (hp : Multi.Front p t.rows) (hq : Multi.Front q t.rows)
    (order : Order) : t.cursor (bound p t.rows) (bound q t.rows) order =
      order.direct (t.rows.filter fun r => !p r && q r) := by
  rw [cursor, between_bound hp hq, Order.direct]

theorem queryLt_eq (smk : κ) (order : Order) : t.queryLt smk order =
      order.direct (t.rows.filter fun r => (RangeQuery.lt smk).contains (key r)) := by
  have h := t.cursor_bound (front_false t.rows) (t.front_lt smk) order
  rw [bound_false] at h
  exact h

theorem queryGt_eq (smk : κ) (order : Order) : t.queryGt smk order =
      order.direct (t.rows.filter fun r => (RangeQuery.gt smk).contains (key r)) := by
  have h := t.cursor_bound (t.front_le smk) (front_true t.rows) order
  rw [bound_true] at h
  simpa [queryGt, upperBound, RangeQuery.contains, ← not_le] using h

theorem queryIn_eq {low high : κ} (h : low < high) (order : Order) : t.queryIn low high order =
      some (order.direct
        (t.rows.filter fun r => (RangeQuery.within low high).contains (key r))) := by
  have hcursor := t.cursor_bound (t.front_le low) (t.front_lt high) order
  rw [queryIn, if_pos h, upperBound, lowerBound, hcursor]
  simp [RangeQuery.contains, ← not_le]

theorem all_eq (order : Order) :
    t.all order = order.direct (t.rows.filter fun r => RangeQuery.all.contains (key r)) := by
  have h := t.cursor_bound (front_false t.rows) (front_true t.rows) order
  rw [bound_false, bound_true] at h
  exact h

end SortedTable

namespace Staged
variable {key : ρ → κ} (s : Staged τ key)

theorem rank_sorted :
    s.inserts.Pairwise fun a b => pairRank (pairOf key a) ≤ pairRank (pairOf key b) := by
  refine s.sorted.imp fun {a b} h => ?_
  rw [pairLt_eq, decide_eq_false_iff_not, not_lt] at h
  exact h

theorem front_lower (needle : τ × RowMark κ) :
    Multi.Front (fun p => pairLt (pairOf key p) needle) s.inserts := by
  refine front_of_rank s.rank_sorted fun a b hab hb => ?_
  rw [pairLt_eq, decide_eq_true_eq] at hb ⊢
  exact lt_of_le_of_lt hab hb

theorem front_upper (needle : τ × RowMark κ) :
    Multi.Front (fun p => !pairLt needle (pairOf key p)) s.inserts := by
  refine front_of_rank s.rank_sorted fun a b hab hb => ?_
  rw [pairLt_eq, not_eq_true', decide_eq_false_iff_not, not_lt] at hb ⊢
  exact le_trans hab hb

theorem insertsInRange_sorted (tbl : τ) (q : RangeQuery κ) :
    (insertsInRange s tbl q).Pairwise fun a b => key a ≤ key b := by
  refine pairwise_map.mpr ((List.Pairwise.and_mem.mp (s.rank_sorted.filter _)).imp ?_)
  rintro ⟨u, a⟩ ⟨v, b⟩ ⟨ha, hb, hab⟩
  obtain rfl : u = tbl := by simpa using (and_eq_true_iff.mp (mem_filter.mp ha).2).1
  obtain rfl : v = u := by simpa using (and_eq_true_iff.mp (mem_filter.mp hb).2).1
  simpa [pairRank, pairOf, markRank, Prod.Lex.le_iff] using hab

variable (tbl : τ) (t : SortedTable key)

/-- A merged cursor whose two parts hold what is in the range of a query. -/
structure Covers (q : RangeQuery κ) (order : Order) (c : MergedCursor τ ρ) : Prop where
  tbl_eq : c.tbl = tbl
  removes_eq : c.removes = s.removes
  fresh : c.cached = false ∧ c.nextCandidate = none
  cursor_eq : c.cursor = order.direct (t.rows.filter fun r => q.contains (key r))
  inserts_eq : c.inserts = order.direct (insertsInRange s tbl q)

theorem covers_mergedCursor {q : RangeQuery κ} {order : Order} {cursor : List ρ}
    {lo hi : τ × ρ → Bool} (hlo : Multi.Front lo s.inserts) (hhi : Multi.Front hi s.inserts)
    (hcursor : cursor = order.direct (t.rows.filter fun r => q.contains (key r)))
    (hsel : ∀ p : τ × ρ, (!lo p && hi p) = (decide (p.1 = tbl) && q.contains (key p.2))) :
    Covers s tbl t q order (s.mergedCursor tbl cursor (bound lo s.inserts)
      (bound hi s.inserts) order) where
  tbl_eq := rfl
  removes_eq := rfl
  fresh := ⟨rfl, rfl⟩
  cursor_eq := hcursor
  inserts_eq := by
    rw [mergedCursor, between_bound hlo hhi, insertsInRange, Order.direct]
    simp only [hsel]

theorem covers_doQueryLt (smk : κ) (order : Order) :
    Covers s tbl t (.lt smk) order (s.doQueryLt tbl t smk order) := by
  refine covers_mergedCursor s tbl t (s.front_lower _) (s.front_lower _) (t.queryLt_eq smk order) ?_
  rintro ⟨u, r⟩
  by_cases hu : u = tbl <;> simp [pairLt, pairOf, RangeQuery.contains, hu]

theorem covers_doQueryGt (smk : κ) (order : Order) :
    Covers s tbl t (.gt smk) order (s.doQueryGt tbl t smk order) := by
  refine covers_mergedCursor s tbl t (s.front_upper _) (s.front_upper _) (t.queryGt_eq smk order) ?_
  rintro ⟨u, r⟩
  by_cases hu : tbl = u <;> simp [pairLt, pairOf, RangeQuery.contains, hu, eq_comm (a := u)]

theorem covers_doAll (order : Order) : Covers s tbl t .all order (s.doAll tbl t order) := by
  refine covers_mergedCursor s tbl t (s.front_lower _) (s.front_upper _) (t.all_eq order) ?_
  rintro ⟨u, r⟩
  rcases lt_trichotomy u tbl with hu | rfl | hu
  · simp [pairLt, pairOf, RangeQuery.contains, hu, hu.ne]
  · simp [pairLt, pairOf, RangeQuery.contains]
  · simp [pairLt, pairOf, RangeQuery.contains, hu, hu.ne, hu.ne', hu.not_gt]

theorem covers_doQueryIn {low high : κ} (h : low < high) (order : Order) :
    ∃ c, s.doQueryIn tbl t low high order = some c ∧ Covers s tbl t (.within low high) order c := by
  rw [doQueryIn, t.queryIn_eq h]
  refine ⟨_, rfl, covers_mergedCursor s tbl t (s.front_upper _) (s.front_lower _) rfl ?_⟩
  rintro ⟨u, r⟩
  rcases lt_trichotomy u tbl with hu | rfl | hu
  · simp [pairLt, pairOf, RangeQuery.contains, hu, hu.ne, hu.ne', hu.not_gt]
  · simp [pairLt, pairOf, RangeQuery.contains]
  · simp [pairLt, pairOf, RangeQuery.contains, hu.ne', hu.not_gt]

theorem doRange_spec (q : RangeQuery κ) (order : Order) :
    (¬ q.Valid ∧ s.doRange tbl t order q = none) ∨
    (q.Valid ∧ ∃ c, s.doRange tbl t order q = some c ∧ Covers s tbl t q order c) := by
  cases q with
  | lt smk => exact .inr ⟨trivial, _, rfl, s.covers_doQueryLt tbl t smk order⟩
  | gt smk => exact .inr ⟨trivial, _, rfl, s.covers_doQueryGt tbl t smk order⟩
  | all => exact .inr ⟨trivial, _, rfl, s.covers_doAll tbl t order⟩
  | within low high =>
    by_cases h : low < high
    · exact .inr ⟨h, s.covers_doQueryIn tbl t h order⟩
    · refine .inl ⟨h, ?_⟩
      rw [doRange, doQueryIn, SortedTable.queryIn, if_neg h, Option.map_none]

variable {s tbl t}

theorem Covers.drain_eq [LinearOrder ρ] {q : RangeQuery κ} {order : Order} {c : MergedCursor τ ρ}
    (h : Covers s tbl t q order c) : c.drain = some ((order.direct (rowsInRange s tbl t q)).merge
      (order.direct (insertsInRange s tbl q)) fun r i => decide (r < i)) := by
  have hpending : c.pending = order.direct (rowsInRange s tbl t q) := by
    rw [MergedCursor.pending, h.fresh.2, h.cursor_eq, h.tbl_eq, h.removes_eq, Order.direct_filter,
      filter_filter, rowsInRange]
    simp only [Option.toList_none, nil_append, Bool.and_comm]
  rw [c.drain_eq h.fresh.1, MergedCursor.rest, hpending, h.inserts_eq]

end Staged

section Results
variable [LinearOrder ρ] {key : ρ → κ} (s : Staged τ key) (tbl : τ) (t : SortedTable key)

theorem rowsInRange_sorted (q : RangeQuery κ) :
    (rowsInRange s tbl t q).Pairwise fun a b => key a ≤ key b :=
  t.sorted.filter _

/-- A range query yields the rows of the table in range that are not staged for removal and the
    staged rows in range, each as often as it stands there, in the order asked for, exactly when its
    range is valid and the addresses the cursor compares stand in the order of the keys. -/
theorem result_ordered_iff (q : RangeQuery κ) (order : Order) :
    (∃ rows, s.resultRows tbl t q order = some rows ∧
      rows.Perm (rowsInRange s tbl t q ++ insertsInRange s tbl q) ∧
      rows.Pairwise fun a b => order.le (key a) (key b)) ↔
    q.Valid ∧ PointersFollowKeys s tbl t q order := by
  have hsorted : (List.merge _ _ _).Pairwise _ ↔ PointersFollowKeys s tbl t q order :=
    pairwise_merge_iff (fun {a b c} => order.trans (a := key a) (b := key b) (c := key c))
    (order.pairwise_direct (rowsInRange_sorted s tbl t q))
    (order.pairwise_direct (s.insertsInRange_sorted tbl q))
  rcases s.doRange_spec tbl t q order with ⟨hq, hnone⟩ | ⟨hq, c, hc, hcovers⟩
  · refine iff_of_false ?_ fun h => hq h.1
    rintro ⟨rows, hrows, -⟩
    rw [Staged.resultRows, hnone] at hrows
    cases hrows
  · rw [Staged.resultRows, hc, Option.bind_some, hcovers.drain_eq]
    constructor
    · rintro ⟨rows, hrows, -, hord⟩
      obtain rfl := Option.some.inj hrows
      exact ⟨hq, hsorted.mp hord⟩
    · rintro ⟨-, hagree⟩
      refine ⟨_, rfl, ?_, hsorted.mpr hagree⟩
      exact (merge_perm_append _).trans ((order.direct_perm _).append (order.direct_perm _))

/-- A row with key 1 in the table and a staged row with key 2 at a lower address: the query of all
    rows in ascending order yields the key 2 before the key 1. -/
theorem staged_row_first :
    let key : ℕ → ℕ := fun address => if address = 5 then 1 else 2
    let t : SortedTable key := ⟨[5], pairwise_singleton _ _⟩
    let s : Staged ℕ key := ⟨[(0, 3)], pairwise_singleton _ _, []⟩
    s.resultRows 0 t .all .ORD_ASC = some [3, 5] ∧
      ¬ [3, 5].Pairwise fun a b => Order.le .ORD_ASC (key a) (key b) := by
  refine ⟨by decide, fun h => ?_⟩
  have hle : (2 : ℕ) ≤ 1 := (pairwise_cons.mp h).1 5 (mem_singleton_self 5)
  omega

end Results

end Fiss.Memdb
