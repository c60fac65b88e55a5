import Fiss.Pam.Rebuild
import Fiss.Schemes.Runs

/-! Column updates and the copies of a row. `make_maps_test` stores an order in `om`, with its
    customer in `cm` and under its date in `oom`, and a stock row in `static_data.ism`, under its
    item in `ism2` and under its supplier in `sim2`. `updateMap` (`OLAP/PAM/tpch/test.cpp`) rewrites
    a column of one row in one of these indices. -/

namespace Fiss.Pam

open Index Option Prod

/-- `static_data.ism`. -/
def DataSet.ism (d : DataSet) : Index (ℕ × ℕ) Stock :=
  primaryIndex (fun s => (s.sIId, s.sWId)) d.stocks

/-- The globals that `updateMap` writes. -/
structure Globals where
  m : Maps
  ism : Index (ℕ × ℕ) Stock

/-- `make_maps_test`, with the index it leaves in `static_data`. -/
def DataSet.globals (d : DataSet) : Globals := ⟨makeMapsTest d, d.ism⟩

/-! ### The calls -/

/-- The columns of `order` that `updateMap` tells apart. -/
inductive OrderCol | oCarrierId | oCId | unimplemented
  deriving DecidableEq, Repr

/-- The columns of `customer`; all but the balance need no update. -/
inductive CustomerCol | cBalance | cDeliveryCnt | cYtdPayment | cData | unimplemented
  deriving DecidableEq, Repr

/-- The columns of `stock`. -/
inductive StockCol | sQuantity | sOrderCnt | sYtd | sRemoteCnt | unimplemented
  deriving DecidableEq, Repr

/-- A call, with the key and the value parsed. Order lines and the other tables are not updated. -/
inductive Update
  | order (oId oDId oWId : ℕ) (col : OrderCol) (value : ℤ)
  | customer (cId cDId cWId : ℕ) (col : CustomerCol) (value : ℚ)
  | stock (sIId sWId : ℕ) (col : StockCol) (value : ℤ)
  | other

/-- An `int` stored in a `uint`. -/
def toUint (v : ℤ) : ℕ := (v % 2 ^ 32).toNat

/-- What the call writes into the order row, if it writes it. -/
def OrderCol.write (v : ℤ) : OrderCol → Option (Order → Order)
  | .oCarrierId => some fun o => { o with oCarrierId := toUint v }
  | .oCId => some fun o => { o with oCId := toUint v }
  | .unimplemented => none

def CustomerCol.write (v : ℚ) : CustomerCol → Option (Customer → Customer)
  | .cBalance => some fun c => { c with cBalance := v }
  | .cDeliveryCnt | .cYtdPayment | .cData | .unimplemented => none

def StockCol.write (v : ℤ) : StockCol → Option (Stock → Stock)
  | .sQuantity => some fun s => { s with sQuantity := toUint v }
  | .sOrderCnt => some fun s => { s with sOrderCnt := toUint v }
  | .sYtd | .sRemoteCnt | .unimplemented => none

section

variable (s : Globals) (k : ℕ)

/-- `om.update(o_pkey, f)`. -/
def Globals.updateOrder (f : Order → Order) : Globals :=
  { s with m := { s.m with om := s.m.om.update k fun e => (f e.1, e.2) } }

/-- `cm.update(c_pkey, f)`. -/
def Globals.updateCustomer (f : Customer → Customer) : Globals :=
  { s with m := { s.m with cm := s.m.cm.update k fun e => (f e.1, e.2) } }

/-- `ism.update(make_pair(s_i_id, s_w_id), f)`. -/
def Globals.updateStock (k : ℕ × ℕ) (f : Stock → Stock) : Globals :=
  { s with ism := s.ism.update k f }

def updateMap : Update → Globals
  | .order oId oDId oWId col v =>
    ((col.write v).map (s.updateOrder (pkey oWId oDId oId))).getD s
  | .customer cId cDId cWId col v =>
    ((col.write v).map (s.updateCustomer (pkey cWId cDId cId))).getD s
  | .stock sIId sWId col v => ((col.write v).map (s.updateStock (sIId, sWId))).getD s
  | .other => s

/-! ### The copies -/

/-- The order `o` is stored under `k` in `om`. -/
def InOm (o : Order) : Prop := ∃ ls, s.m.om.lookup k = some (o, ls)

/-- The order `o` is stored under `k` inside some customer's entry or some date's entry. -/
def Filed (o : Order) : Prop :=
  (∃ c e ls, s.m.cm.lookup c = some e ∧ e.2.lookup k = some (o, ls)) ∨
    ∃ d os ls, s.m.oom.lookup d = some os ∧ os.lookup k = some (o, ls)

/-- The stock row `st` is stored under `k` in `static_data.ism`. -/
def InIsm (k : ℕ × ℕ) (st : Stock) : Prop := s.ism.lookup k = some st

/-- The stock row `st` is stored under `k` inside some item's entry or some supplier's entry. -/
def Stocked (k : ℕ × ℕ) (st : Stock) : Prop :=
  (∃ i e ls, s.m.ism2.lookup i = some e ∧ e.2.lookup k = some (st, ls)) ∨
    ∃ p e ls, s.m.sim2.lookup p = some e ∧ e.2.lookup k = some (st, ls)

/-- All values of which `A` or `B` holds are one. -/
def Single {α : Type} (A B : α → Prop) : Prop := ∀ a b, A a ∨ B a → A b ∨ B b → a = b

/-- All stored copies of an order carry the same columns, and so do all copies of a stock row. -/
structure CopiesAgree (s : Globals) : Prop where
  orders : ∀ k, Single (InOm s k) (Filed s k)
  stocks : ∀ k, Single (InIsm s k) (Stocked s k)

/-- Rewriting the main copy by `f` shows nowhere: there is no main copy, or no other, or the columns
    stay as they are. -/
def Unseen {α : Type} (A B : α → Prop) (f : α → α) : Prop := ∀ a b, A a → B b → f a = a

/-- The call finds a row whose columns it leaves as they are, or one stored once at most. -/
def Harmless : Update → Prop
  | .order oId oDId oWId col v => ∀ f, col.write v = some f →
      Unseen (InOm s (pkey oWId oDId oId)) (Filed s (pkey oWId oDId oId)) f
  | .customer .. => True
  | .stock sIId sWId col v => ∀ f, col.write v = some f →
      Unseen (InIsm s (sIId, sWId)) (Stocked s (sIId, sWId)) f
  | .other => True

end

section Single
variable {α : Type} {A A' B : α → Prop} {f : α → α}

theorem single_rewrite_iff (hA : ∀ a b, A a → A b → a = b)
    (hA' : ∀ a, A' a ↔ ∃ a0, A a0 ∧ f a0 = a) (h : Single A B) : Single A' B ↔ Unseen A B f := by
  constructor
  · intro h' a b ha hb
    have hab : a = b := h a b (.inl ha) (.inr hb)
    exact hab ▸ h' (f a) b (.inl ((hA' _).mpr ⟨a, ha, rfl⟩)) (.inr hb)
  · rintro hu a b (ha | ha) (hb | hb)
    · obtain ⟨⟨a0, ha0, rfl⟩, b0, hb0, rfl⟩ := (hA' a).mp ha, (hA' b).mp hb
      rw [hA a0 b0 ha0 hb0]
    · obtain ⟨a0, ha0, rfl⟩ := (hA' a).mp ha
      exact (hu a0 b ha0 hb).trans (h a0 b (.inl ha0) (.inr hb))
    · obtain ⟨b0, hb0, rfl⟩ := (hA' b).mp hb
      exact ((hu b0 a hb0 ha).trans (h b0 a (.inl hb0) (.inr ha))).symm
    · exact h a b (.inr ha) (.inr hb)

/-- The same for the copies under every key, of which those under `k` are rewritten. -/
theorem forall_single_rewrite_iff {K : Type} [DecidableEq K] {A A' B : K → α → Prop} {k : K}
    (hA : ∀ a b, A k a → A k b → a = b)
    (hA' : ∀ k' a, A' k' a ↔ if k' = k then ∃ a0, A k a0 ∧ f a0 = a else A k' a)
    (h : ∀ k', Single (A k') (B k')) : (∀ k', Single (A' k') (B k')) ↔ Unseen (A k) (B k) f := by
  have hself := single_rewrite_iff hA (fun a => (hA' k a).trans (by rw [if_pos rfl])) (h k)
  refine ⟨fun h' => hself.mp (h' k), fun hu k' => ?_⟩
  rcases eq_or_ne k' k with rfl | hk
  · exact hself.mpr hu
  · have hsame : A' k' = A k' := funext fun a => propext ((hA' k' a).trans (by rw [if_neg hk]))
    exact hsame ▸ h k'

end Single

section Step
variable {s : Globals}

theorem inOm_unique {k : ℕ} {o o' : Order} (h : InOm s k o) (h' : InOm s k o') : o = o' := by
  obtain ⟨⟨ls, h⟩, ls', h'⟩ := h, h'
  exact congrArg fst (some.inj (h.symm.trans h'))

theorem inOm_updateOrder (k : ℕ) (f : Order → Order) (k' : ℕ) (o : Order) :
    InOm (s.updateOrder k f) k' o ↔
      if k' = k then ∃ o0, InOm s k o0 ∧ f o0 = o else InOm s k' o := by
  unfold InOm Globals.updateOrder
  simp only [lookup_update]
  rcases eq_or_ne k' k with rfl | hk
  · simp only [if_true, map_eq_some_iff, Prod.mk.injEq, Prod.exists]
    constructor
    · rintro ⟨ls, o0, ls0, h, ho, -⟩
      exact ⟨o0, ⟨ls0, h⟩, ho⟩
    · rintro ⟨o0, ⟨ls0, h⟩, ho⟩
      exact ⟨ls0, o0, ls0, h, ho, rfl⟩
  · simp only [if_neg hk]

theorem filed_updateCustomer (k : ℕ) (f : Customer → Customer) (k' : ℕ) (o : Order) :
    Filed (s.updateCustomer k f) k' o ↔ Filed s k' o := by
  refine or_congr_left ?_
  simp only [Globals.updateCustomer, lookup_update]
  constructor
  · rintro ⟨c, e, ls, he, ho⟩
    rcases eq_or_ne c k with rfl | hc
    · rw [if_pos rfl] at he
      obtain ⟨e0, he0, rfl⟩ := map_eq_some_iff.mp he
      exact ⟨c, e0, ls, he0, ho⟩
    · exact ⟨c, e, ls, (if_neg hc).symm.trans he, ho⟩
  · rintro ⟨c, e, ls, he, ho⟩
    rcases eq_or_ne c k with rfl | hc
    · exact ⟨c, (f e.1, e.2), ls, by rw [if_pos rfl, he, map_some], ho⟩
    · exact ⟨c, e, ls, (if_neg hc).trans he, ho⟩

theorem copiesAgree_updateOrder_iff (h : CopiesAgree s) (k : ℕ) (f : Order → Order) :
    CopiesAgree (s.updateOrder k f) ↔ Unseen (InOm s k) (Filed s k) f := by
  have hiff := forall_single_rewrite_iff (fun _ _ => inOm_unique) (inOm_updateOrder k f) h.orders
  exact ⟨fun h' => hiff.mp h'.orders, fun hu => ⟨hiff.mpr hu, h.stocks⟩⟩

theorem copiesAgree_updateCustomer (h : CopiesAgree s) (k : ℕ) (f : Customer → Customer) :
    CopiesAgree (s.updateCustomer k f) where
  orders k' := by
    have hf : Filed (s.updateCustomer k f) k' = Filed s k' :=
      funext fun o => propext (filed_updateCustomer k f k' o)
    exact hf ▸ h.orders k'
  stocks := h.stocks

theorem inIsm_updateStock (k : ℕ × ℕ) (f : Stock → Stock) (k' : ℕ × ℕ) (st : Stock) :
    InIsm (s.updateStock k f) k' st ↔
      if k' = k then ∃ st0, InIsm s k st0 ∧ f st0 = st else InIsm s k' st := by
  rw [InIsm, Globals.updateStock, lookup_update]
  rcases eq_or_ne k' k with rfl | hk
  · rw [if_pos rfl, if_pos rfl, map_eq_some_iff]; rfl
  · rw [if_neg hk, if_neg hk]; rfl

theorem copiesAgree_updateStock_iff (h : CopiesAgree s) (k : ℕ × ℕ) (f : Stock → Stock) :
    CopiesAgree (s.updateStock k f) ↔ Unseen (InIsm s k) (Stocked s k) f := by
  have hiff := forall_single_rewrite_iff
    (fun _ _ hst hst' => some.inj (hst.symm.trans hst')) (inIsm_updateStock k f) h.stocks
  exact ⟨fun h' => hiff.mp h'.stocks, fun hu => ⟨h.orders, hiff.mpr hu⟩⟩

theorem copiesAgree_updateMap_iff (h : CopiesAgree s) (u : Update) :
    CopiesAgree (updateMap s u) ↔ Harmless s u := by
  cases u with
  | order oId oDId oWId col v =>
    rw [updateMap, Harmless]
    cases col.write v with
    | none => simpa using h
    | some f => simpa using copiesAgree_updateOrder_iff h (pkey oWId oDId oId) f
  | customer cId cDId cWId col v =>
    rw [updateMap, Harmless]
    cases col.write v with
    | none => simpa using h
    | some f => simpa using copiesAgree_updateCustomer h (pkey cWId cDId cId) f
  | stock sIId sWId col v =>
    rw [updateMap, Harmless]
    cases col.write v with
    | none => simpa using h
    | some f => simpa using copiesAgree_updateStock_iff h (sIId, sWId) f
  | other => simpa [updateMap, Harmless] using h

end Step

/-! ### From the table files on -/

section
variable {d : DataSet}

theorem inOm_of_filed {k : ℕ} {o : Order} (h : Filed d.globals k o) : InOm d.globals k o := by
  rcases h with ⟨c, e, ls, he, ho⟩ | ⟨t, os, ls, hos, ho⟩
  · exact ⟨ls, lookup_of_pairedIndex he ho⟩
  · exact ⟨ls, lookup_of_regroupIndex hos ho⟩

theorem filed_of_inOm {k : ℕ} {o : Order} (h : InOm d.globals k o) : Filed d.globals k o := by
  obtain ⟨ls, h⟩ := h
  have hdate := lookup_regroupIndex_bind (fun e : Order × OlMap => e.1.oEntryD.c) d.om o.oEntryD.c k
  rw [show d.om.lookup k = some (o, ls) from h, filter_some, decide_eq_true rfl,
    if_pos rfl] at hdate
  obtain ⟨os, hos, ho⟩ := bind_eq_some_iff.mp hdate
  exact .inr ⟨o.oEntryD.c, os, ls, hos, ho⟩

theorem inIsm_of_isom {k : ℕ × ℕ} {st : Stock} {ls : OlMap} (h : d.isom.lookup k = some (st, ls)) :
    InIsm d.globals k st := by
  rw [DataSet.isom, lookup_pairedIndex] at h
  obtain ⟨st', hst, h⟩ := bind_eq_some_iff.mp h
  obtain ⟨ls', -, heq⟩ := map_eq_some_iff.mp h
  obtain ⟨rfl, -⟩ := mk.inj heq
  exact hst

theorem inIsm_of_stocked {k : ℕ × ℕ} {st : Stock} (h : Stocked d.globals k st) :
    InIsm d.globals k st := by
  rcases h with ⟨i, e, ls, he, hst⟩ | ⟨p, e, ls, he, hst⟩
  · exact inIsm_of_isom (lookup_of_pairedIndex he hst)
  · exact inIsm_of_isom (lookup_of_pairedIndex he hst)

theorem copiesAgree_globals (d : DataSet) : CopiesAgree d.globals where
  orders _ _ _ h h' := inOm_unique (h.elim id inOm_of_filed) (h'.elim id inOm_of_filed)
  stocks _ _ _ h h' :=
    some.inj ((h.elim id inIsm_of_stocked).symm.trans (h'.elim id inIsm_of_stocked))

end

/-- One call as a step of a run. -/
def updateStep (s : Globals) (u : Update) : Option Globals := some (updateMap s u)

/-- From the table files on, the copies agree in every state of a sequence of calls exactly when
    every call is harmless where it is made. -/
theorem copies_agree_iff (d : DataSet) (us : List Update) :
    Throughout updateStep CopiesAgree d.globals us ↔ Along updateStep Harmless d.globals us := by
  suffices h : ∀ s, CopiesAgree s →
      (Throughout updateStep CopiesAgree s us ↔ Along updateStep Harmless s us) from
    h _ (copiesAgree_globals d)
  induction us with
  | nil => exact fun s hs => iff_of_true hs trivial
  | cons u us ih =>
    intro s hs
    constructor
    · rintro ⟨-, h⟩ t ht
      have hP := h t ht
      cases ht
      have hu := throughout_head hP
      exact ⟨(copiesAgree_updateMap_iff hs u).mp hu, (ih _ hu).mp hP⟩
    · intro h
      refine ⟨hs, fun t ht => ?_⟩
      obtain ⟨hu, hC⟩ := h t ht
      cases ht
      exact (ih _ ((copiesAgree_updateMap_iff hs u).mpr hu)).mpr hC

/-- A delivery sets the carrier of the shop's only order; the order under its date keeps the old
    one. -/
theorem delivery_leaves_old_carrier :
    ¬ CopiesAgree (updateMap smallShop.globals (.order 1 1 1 .oCarrierId 7)) := by
  intro h
  have hom : InOm smallShop.globals (pkey 1 1 1) ⟨1, 1, 1, 1, ⟨1, 1, 2023⟩, 0, 1⟩ :=
    ⟨_, lookup_makePairedIndex Order.oPkey _ smallShop.orders (pkey 1 1 1)⟩
  have hu := (copiesAgree_updateMap_iff (copiesAgree_globals smallShop) _).mp h _ rfl _ _ hom
    (filed_of_inOm hom)
  exact absurd (congrArg Order.oCarrierId hu) (by decide)

end Fiss.Pam
