import Fiss.Pam.Rebuild

/-! The rows of a new order in any order of arrival: one call of `insertOrder` and one of
    `insertOrderline` for each of its lines. The lines commute with each other, but the order takes
    its set of lines from the array as it is when `insertOrder` runs. -/

namespace Fiss.Pam

open Index List OrderLine

/-- A call for a row of a new order. -/
inductive RowCall where
  | order
  | line (l : OrderLine)

def RowCall.run (n : NewOrder) (s : Engine) : RowCall → Engine
  | .order => insertOrder s n.txnId n.order
  | .line l => insertOrderline s n.txnId l

/-- The calls for a new order. -/
def NewOrder.calls (n : NewOrder) : List RowCall := .order :: n.lines.map .line

/-- The calls, as they come. -/
def arrive (s : Engine) (n : NewOrder) (calls : List RowCall) : Engine :=
  calls.foldl (RowCall.run n) s

theorem arrive_append (s : Engine) (n : NewOrder) (cs ds : List RowCall) :
    arrive s n (cs ++ ds) = arrive (arrive s n cs) n ds := foldl_append

theorem arrive_lines (s : Engine) (n : NewOrder) (ls : List OrderLine) :
    arrive s n (ls.map .line) = insertLines s n.txnId ls := foldl_map

/-- The calls are those for some lines, that for the order, and those for the other lines. -/
theorem split_calls {n : NewOrder} {cs : List RowCall} (h : cs.Perm n.calls) :
    ∃ before after : List OrderLine, cs = before.map .line ++ .order :: after.map .line ∧
      (before ++ after).Perm n.lines := by
  obtain ⟨a, b, rfl⟩ := append_of_mem (h.mem_iff.mpr mem_cons_self)
  have hlines : (a ++ b).Perm (n.lines.map .line) := (perm_middle.symm.trans h).cons_inv
  have hall : ∀ c ∈ a ++ b, c ∈ Set.range RowCall.line := by
    intro c hc
    obtain ⟨l, -, rfl⟩ := mem_map.mp (hlines.mem_iff.mp hc)
    exact ⟨l, rfl⟩
  have hrange : ∀ {cs : List RowCall}, cs ⊆ a ++ b →
      ∃ ls : List OrderLine, ls.map RowCall.line = cs := by
    intro cs hcs
    have hmem : cs ∈ Set.range (map RowCall.line) := by
      rw [Set.range_list_map]
      exact fun c hc => hall c (hcs hc)
    exact hmem
  obtain ⟨before, rfl⟩ := hrange (subset_append_left a b)
  obtain ⟨after, rfl⟩ := hrange (subset_append_right _ b)
  refine ⟨before, after, rfl, ?_⟩
  have hinj : Function.Injective RowCall.line := fun l l' heq => by cases heq; rfl
  rw [← map_append] at hlines
  exact (map_perm_map_iff hinj).mp hlines

/-! ### Lines among each other -/

/-- What a line does to the indices. -/
def addLine (m : Maps) (l : OrderLine) : Maps :=
  (insertOrderline { m } 0 l).m

theorem insertLines_m (s : Engine) (t : ℕ) (ls : List OrderLine) :
    (insertLines s t ls).m = ls.foldl addLine s.m := by
  induction ls using reverseRecOn with
  | nil => rfl
  | append_singleton ls l ih =>
    rw [insertLines_concat, foldl_concat, ← ih]
    simp [addLine, insertOrderline]

theorem insert_comm {l l' : OrderLine} (h : l.key ≠ l'.key) (e : Stock × OlMap) :
    ((e.1, (e.2.insert l.key l).insert l'.key l') : Stock × OlMap) =
      (e.1, (e.2.insert l'.key l').insert l.key l) := by
  rw [Finmap.insert_insert_of_ne _ h]

theorem addLine_comm (m : Maps) {l l' : OrderLine} (h : l.key ≠ l'.key) :
    addLine (addLine m l) l' = addLine (addLine m l') l := by
  simp only [addLine, insertOrderline, storeLine_m]
  refine Maps.ext rfl rfl rfl rfl ?_ ?_ ?_
  all_goals
    refine update_comm _ fun e => Prod.ext rfl (update_comm _ fun e => ?_)
    exact insert_comm h e

/-- Lines with keys of their own commute. -/
theorem foldl_addLine {ls ls' : List OrderLine} (hperm : ls.Perm ls')
    (hd : Distinct key ls) (m : Maps) : ls.foldl addLine m = ls'.foldl addLine m := by
  refine hperm.foldl_eq' (fun l hl l' hl' m => ?_) m
  by_cases hk : l.key = l'.key
  · rw [hd l hl l' hl' hk]
  · exact addLine_comm m hk

/-! ### The order and its lines -/

theorem mem_lineArray {ls : List OrderLine} {l : OrderLine} (h : l ∈ lineArray ls) :
    l = default ∨ l ∈ ls := by
  induction ls using reverseRecOn with
  | nil => exact .inl (eq_of_mem_replicate h)
  | append_singleton ls l' ih =>
    rw [lineArray_concat] at h
    rcases mem_or_eq_of_mem_set h with h | rfl
    · exact (ih h).imp_right (mem_append_left _)
    · simp

theorem mem_orderArray {s : Engine} {t : ℕ} {o : Order} {ls : List OrderLine} {l : OrderLine}
    (hu : Unused s t) (h : l ∈ orderArray (insertLines s t ls) t o) : l = default ∨ l ∈ ls := by
  rcases eq_or_ne ls [] with rfl | hne
  · rw [orderArray, show (insertLines s t []).orderlineObject.find t = none from hu.1] at h
    exact .inl (eq_of_mem_replicate h)
  · rw [orderArray, (find_insertLines hu hne).1] at h
    exact mem_lineArray h

section Arrive

variable {s : Engine} {n : NewOrder} {before after : List OrderLine}

theorem NewOrder.WellFormed.perm (h : n.WellFormed) (hperm : before.Perm n.lines) :
    NewOrder.WellFormed { n with lines := before } where
  count := h.count.trans hperm.length_eq.symm
  max := h.max
  numbers := hperm.length_eq ▸ (hperm.map _).trans h.numbers
  own l hl := h.own l (hperm.mem_iff.mp hl)

/-- With the order last, the lines may come in any order. -/
theorem order_last (h : n.WellFormed) (hu : Unused s n.txnId) (hperm : before.Perm n.lines) :
    (insertOrder (insertLines s n.txnId before) n.txnId n.order).m = (insertNewOrder s n).m := by
  have hbefore := primaryIndex_orderArray (h.perm hperm) hu
  have hsame : primaryIndex key before = primaryIndex key n.lines :=
    primaryIndex_congr h.distinct fun _ => hperm.mem_iff
  have hset := hbefore.trans (hsame.trans (primaryIndex_orderArray h hu).symm)
  have hmaps : (insertLines s n.txnId before).m = (insertLines s n.txnId n.lines).m := by
    rw [insertLines_m, insertLines_m, foldl_addLine hperm (h.perm hperm).distinct]
  simp only [insertNewOrder, insertOrder]
  dsimp only at hset
  rw [hmaps, hset]

/-- A line that comes after the order is not in the order's set. -/
theorem order_not_last (h : n.WellFormed) (hu : Unused s n.txnId)
    (hperm : (before ++ after).Perm n.lines) (hne : after ≠ []) :
    (insertLines (insertOrder (insertLines s n.txnId before) n.txnId n.order) n.txnId after).m.om ≠
      (insertNewOrder s n).m.om := by
  intro heq
  obtain ⟨l, rest, rfl⟩ := exists_cons_of_ne_nil hne
  have hl : l ∈ n.lines := hperm.mem_iff.mp (by simp)
  rw [(insertLines_frame _ _ _).1] at heq
  have hlookup := congrArg (fun m => (m.lookup n.order.oPkey).map fun e => e.2.lookup l.key) heq
  simp only [insertNewOrder, insertOrder, lookup_insert_ite, if_true, Option.map_some,
    primaryIndex_orderArray h hu, lookup_primaryIndex, Option.some.injEq] at hlookup
  rw [(find_key_eq_some h.distinct).mpr ⟨hl, rfl⟩] at hlookup
  have hkey := key_eq_of_find hlookup
  have hmem := mem_of_mem_take (mem_of_find?_eq_some hlookup)
  rcases mem_orderArray hu hmem with rfl | hbefore
  · have hpos := (h.mem_numbers.mp (mem_map_of_mem hl)).1
    exact absurd hpos (by decide)
  · have hnodup := ((hperm.map olNumber).nodup_iff.mpr h.nodup_numbers)
    rw [map_append, nodup_append] at hnodup
    exact hnodup.2.2 _ (mem_map_of_mem hbefore) _ (by simp) rfl

/-- The indices end as with the order inserted after its lines, exactly if it was. -/
theorem arrival_iff (h : n.WellFormed) (hu : Unused s n.txnId) {cs : List RowCall}
    (hcs : cs.Perm n.calls) :
    (arrive s n cs).m = (insertNewOrder s n).m ↔ cs.getLast? = some .order := by
  obtain ⟨before, after, rfl, hperm⟩ := split_calls hcs
  have hrun : arrive s n (before.map .line ++ .order :: after.map .line) = insertLines
      (insertOrder (insertLines s n.txnId before) n.txnId n.order) n.txnId after := by
    rw [arrive_append, arrive_lines]
    exact arrive_lines _ n after
  rw [hrun]
  rcases eq_nil_or_concat' after with rfl | ⟨rest, l, rfl⟩
  · rw [append_nil] at hperm
    exact iff_of_true (order_last h hu hperm) (by simp)
  · refine iff_of_false (fun heq => ?_) (by simp [getLast?_append, getLast?_cons])
    exact order_not_last h hu hperm (by simp) (congrArg Maps.om heq)

theorem arrival_secondOrder : secondOrder.WellFormed ∧
    ((arrive (load smallShop) secondOrder (secondOrder.lines.map .line ++ [.order])).m =
      (insertNewOrder (load smallShop) secondOrder).m) :=
  have h := newOrders_secondOrder.wellFormed secondOrder (mem_singleton_self _)
  ⟨h, (arrival_iff h ⟨rfl, rfl⟩ (List.Perm.swap ..)).mpr rfl⟩

/-- The same order without its line, which comes after it. -/
theorem order_without_line : (arrive (load smallShop) secondOrder secondOrder.calls).m ≠
      (insertNewOrder (load smallShop) secondOrder).m := by
  have h := newOrders_secondOrder.wellFormed secondOrder (mem_singleton_self _)
  have hne : (insertLines (insertOrder (insertLines (load smallShop) 1 []) 1 secondOrder.order) 1
      secondOrder.lines).m.om ≠ (insertNewOrder (load smallShop) secondOrder).m.om :=
    order_not_last h ⟨rfl, rfl⟩ (List.Perm.refl _) (by decide)
  exact fun heq => hne (congrArg Maps.om heq)

end Arrive

end Fiss.Pam
