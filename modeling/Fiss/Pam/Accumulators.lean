import Fiss.Pam.Tables

/-! The arrays in which `Q4`, `Q11` and `Q13` (`OLAP/PAM/tpch`) add up their answers: 6 buckets for
    the number of an order's lines, a sum for each number below the largest item id, and 128 buckets
    for the number of a customer's orders. Each has a subscript that the data can bring past its
    end, `Q11` even for the item with the largest id. -/

namespace Fiss.Pam
open Index Option Finmap

/-- An array of zeros after `a[i] += x` for all `writes`; `none` where a subscript is out of range. -/
def accumulate (size : ℕ) (writes : Multiset (ℕ × ℕ)) : Option (List ℕ) :=
  if ∀ w ∈ writes, w.1 < size then
    some ((List.range size).map fun i => ((writes.filter fun w => w.1 = i).map Prod.snd).sum)
  else none

/-- How many lines of the order were delivered on its day of entry or after. -/
def delivered (o : Order × OlMap) : ℕ :=
  o.2.entries.countP fun l => o.1.oEntryD.c ≤ l.2.olDeliveryD.c

def q4 (m : Maps) (start stop : Date) : Option (List ℕ) :=
  let orderRange := m.oom.entries.filter fun e => start.c ≤ e.1 ∧ e.1 ≤ stop.c
  accumulate 6 <| orderRange.bind fun e =>
    (e.2.entries.filter fun o => 0 < delivered o.2).map fun o => (o.2.1.oOlCnt, 1)

/-- `sums` of `Q11`. -/
def q11Sums (m : Maps) (nationId : ℕ) : Option (List ℕ) :=
  let maxItemKey := m.ism2.keys.sup id
  accumulate maxItemKey <| (m.sim2.entries.filter fun e => e.2.1.suNationkey = nationId).bind
    fun e => e.2.2.entries.map fun pe => (pe.2.1.sIId, pe.2.1.sOrderCnt)

/-- `o_carrier_id > carrier_low`: the `int` is compared as a `uint`. -/
def carrierAbove (carrierLow : ℤ) (o : Order) : Prop := (carrierLow % 2 ^ 32).toNat < o.oCarrierId

instance decidableCarrierAbove (carrierLow : ℤ) : DecidablePred (carrierAbove carrierLow) :=
  fun _ => inferInstanceAs (Decidable (_ < _))

/-- `bucket_sums` of `Q13`. -/
def q13Buckets (m : Maps) (carrierLow : ℤ) : Option (List ℕ) :=
  accumulate 128 <| m.cm.entries.map fun e =>
    (e.2.2.entries.countP fun o => carrierAbove carrierLow o.2.1, 1)

theorem isSome_accumulate {size : ℕ} {writes : Multiset (ℕ × ℕ)} :
    (accumulate size writes).isSome ↔ ∀ w ∈ writes, w.1 < size := by
  rw [accumulate]
  split
  · next h => exact iff_of_true rfl h
  · next h => exact iff_of_false Bool.false_ne_true h

section Entries
variable {K L V X : Type} [DecidableEq K] [DecidableEq L] {key : V → L} {m g : Index K V}
  {a : Index L X} {k : L} {e : Σ _ : K, V}

theorem mem_regroupIndex (key : V → L) (he : e ∈ m.entries) :
    ⟨key e.2, m.filter fun v => key v = key e.2⟩ ∈ (regroupIndex key m).entries ∧
      e ∈ (m.filter fun v => key v = key e.2).entries := by
  rw [← lookup_eq_some_iff] at he ⊢
  rw [← lookup_eq_some_iff, lookup_filter, he]
  exact ⟨lookup_regroupIndex_eq_some.mpr ⟨⟨_, _, he, rfl⟩, rfl⟩, by simp⟩

theorem of_mem_regroupIndex (hg : ⟨k, g⟩ ∈ (regroupIndex key m).entries) (he : e ∈ g.entries) :
    e ∈ m.entries ∧ key e.2 = k := by
  rw [← lookup_eq_some_iff] at *
  rw [← (lookup_regroupIndex_eq_some.mp hg).2, lookup_filter, filter_eq_some_iff] at he
  simpa using he

theorem mem_pairedIndex {b : Index L V} {x : X} {v : V} :
    ⟨k, x, v⟩ ∈ (pairedIndex a b).entries ↔ a.lookup k = some x ∧ ⟨k, v⟩ ∈ b.entries := by
  rw [← lookup_eq_some_iff, ← lookup_eq_some_iff, lookup_pairedIndex]
  cases a.lookup k <;> cases b.lookup k <;> simp

end Entries

section InRange
variable (d : DataSet)

/-- No order entered in the period and with a line delivered has 6 lines or more. -/
def Q4Fits (start stop : Date) : Prop :=
  ∀ o ∈ d.om.entries, start.c ≤ o.2.1.oEntryD.c → o.2.1.oEntryD.c ≤ stop.c →
    0 < delivered o.2 → o.2.1.oOlCnt < 6

/-- No supplier of the nation keeps stock of the item with the largest id. -/
def Q11Fits (nationId : ℕ) : Prop :=
  ∀ s ∈ d.isom.entries, ∀ su,
    d.suppliers.find? (fun su => su.suSuppkey = s.2.1.sSuSuppkey) = some su →
      su.suNationkey = nationId → s.2.1.sIId < d.ism2.keys.sup id

/-- No customer has 128 orders with carriers above `carrierLow`, as unsigned numbers. -/
def Q13Fits (carrierLow : ℤ) : Prop :=
  ∀ c ∈ d.customers, ((d.om.filter fun o => o.1.oCPkey = c.cPkey).entries.countP fun o =>
    carrierAbove carrierLow o.2.1) < 128

theorem q4_isSome (start stop : Date) :
    (q4 (makeMapsTest d) start stop).isSome ↔ Q4Fits d start stop := by
  rw [q4, isSome_accumulate]
  simp only [Multiset.mem_bind, Multiset.mem_filter, Multiset.mem_map]
  constructor
  · intro h o ho hstart hstop hline
    obtain ⟨hg, hin⟩ := mem_regroupIndex (fun e => e.1.oEntryD.c) ho
    exact h _ ⟨_, ⟨hg, hstart, hstop⟩, o, ⟨hin, hline⟩, rfl⟩
  · rintro h _ ⟨e, ⟨he, hstart, hstop⟩, o, ⟨ho, hline⟩, rfl⟩
    obtain ⟨hom, hkey⟩ := of_mem_regroupIndex he ho
    exact h o hom (hkey ▸ hstart) (hkey ▸ hstop) hline

theorem q11Sums_isSome (nationId : ℕ) :
    (q11Sums (makeMapsTest d) nationId).isSome ↔ Q11Fits d nationId := by
  rw [q11Sums, isSome_accumulate]
  simp only [Multiset.mem_bind, Multiset.mem_filter, Multiset.mem_map]
  constructor
  · intro h s hs su hsu hnation
    obtain ⟨hg, hin⟩ := mem_regroupIndex (fun e => e.1.sSuSuppkey) hs
    rw [← lookup_primaryIndex] at hsu
    have he := mem_pairedIndex.mpr ⟨hsu, hg⟩
    exact h _ ⟨_, ⟨he, hnation⟩, s, hin, rfl⟩
  · rintro h _ ⟨e, ⟨he, hnation⟩, s, hs, rfl⟩
    obtain ⟨hsu, hg⟩ := mem_pairedIndex.mp he
    obtain ⟨hisom, hkey⟩ := of_mem_regroupIndex hg hs
    rw [lookup_primaryIndex, ← hkey] at hsu
    exact h s hisom _ hsu hnation

theorem q13Buckets_isSome (carrierLow : ℤ) :
    (q13Buckets (makeMapsTest d) carrierLow).isSome ↔ Q13Fits d carrierLow := by
  rw [q13Buckets, isSome_accumulate]
  simp only [Multiset.mem_map]
  constructor
  · intro h c hc
    by_contra hfull
    -- so many orders: the customer has one, and is thereby in `cm`
    obtain ⟨o, ho, -⟩ := Multiset.countP_pos.mp (Nat.zero_lt_of_lt (not_lt.mp hfull))
    rw [← lookup_eq_some_iff, lookup_filter, filter_eq_some_iff] at ho
    have hkey : o.2.1.oCPkey = c.cPkey := of_decide_eq_true ho.2
    obtain ⟨c', hc'⟩ : ∃ c', d.customers.find? (fun x => x.cPkey = c.cPkey) = some c' := by
      simpa [← isSome_iff_exists] using ⟨c, hc, rfl⟩
    rw [← lookup_primaryIndex] at hc'
    have hg := (mem_regroupIndex (fun e => e.1.oCPkey) (lookup_eq_some_iff.mp ho.1)).1
    rw [hkey] at hg
    exact hfull (h _ ⟨_, mem_pairedIndex.mpr ⟨hc', hg⟩, rfl⟩)
  · rintro h _ ⟨e, he, rfl⟩
    obtain ⟨hc, hg⟩ := mem_pairedIndex.mp he
    rw [lookup_primaryIndex] at hc
    have hkey : e.2.1.cPkey = e.1 := by simpa using List.find?_some hc
    rw [← lookup_eq_some_iff, lookup_regroupIndex_eq_some] at hg
    have := h _ (List.mem_of_find?_eq_some hc)
    rwa [hkey, hg.2] at this

/-- Each query stays within its array exactly for the data that fits it. -/
theorem accumulators_in_range_iff (start stop : Date) (nationId : ℕ) (carrierLow : ℤ) :
    ((q4 (makeMapsTest d) start stop).isSome ∧ (q11Sums (makeMapsTest d) nationId).isSome ∧
      (q13Buckets (makeMapsTest d) carrierLow).isSome) ↔
    Q4Fits d start stop ∧ Q11Fits d nationId ∧ Q13Fits d carrierLow := by
  rw [q4_isSome, q11Sums_isSome, q13Buckets_isSome]

end InRange

/-- One item on stock, ordered once. -/
def oneItem : DataSet where
  orderlines := [⟨1, 1, 1, 1, 1, 1, ⟨4, 1, 2023⟩, 5, 10⟩]
  orders := [⟨1, 1, 1, 1, ⟨2, 1, 2023⟩, 0, 1⟩]
  customers := [⟨1, 1, 1, 0, 55⟩]
  stocks := [⟨1, 1, 10, 1, 7⟩]
  suppliers := [⟨7, 55⟩]
  items := [⟨1, 10⟩]

theorem q11Sums_oneItem : q11Sums (makeMapsTest oneItem) 55 = none := by decide +kernel

end Fiss.Pam
