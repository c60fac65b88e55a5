import Fiss.Olap.Steps

/-! The waitlist of the query thread, a map of maps of maps. It is seen in two ways: by the flag of a
    transaction in a column (`flagOf`), which is what `TriggerCheckParent` sets and the thread looks
    at, and by its entries, which is what a pass of `TriggerCleanWaitlist` walks. -/

namespace Fiss.Olap
open Option List Dict

/-! ### Flags -/

/-- The entry of a column in the two inner maps. -/
def cellOf (shards : Dict ℤ (Dict String ℕ)) (k : Slot) : Option ℕ :=
  (shards.find k.shard).bind fun cols => cols.find k.col

theorem flagOf_eq (w : Waitlist) (t : TxnId) (k : Slot) :
    flagOf w t k = (w.find t).bind fun shards => cellOf shards k := rfl

variable {w : Waitlist}

theorem flagOf_of_isEmpty (h : w.isEmpty = true) (t : TxnId) (k : Slot) : flagOf w t k = none := by
  rw [flagOf, find_of_isEmpty h]; rfl

theorem Slot.eq_iff (k k' : Slot) : k' = k ↔ k'.shard = k.shard ∧ k'.col = k.col := by
  cases k; cases k'; exact Slot.mk.injEq .. ▸ Iff.rfl

theorem cellOf_modify (shards : Dict ℤ (Dict String ℕ)) (k k' : Slot)
    (f : Dict String ℕ → Dict String ℕ) (hf : ∀ cols c, c ≠ k.col → (f cols).find c = cols.find c) :
    cellOf (shards.modify k.shard f) k' =
      if k' = k then (shards.find k.shard).bind fun cols => (f cols).find k.col
      else cellOf shards k' := by
  unfold cellOf
  rw [find_modify]
  rcases eq_or_ne k'.shard k.shard with hs | hs
  · rw [if_pos hs]
    rcases eq_or_ne k'.col k.col with hc | hc
    · rw [if_pos ((Slot.eq_iff k k').mpr ⟨hs, hc⟩), hc, bind_map]; rfl
    · rw [if_neg fun he => hc ((Slot.eq_iff k k').mp he).2, hs]
      cases shards.find k.shard with
      | none => rfl
      | some cols => exact hf cols k'.col hc
  · rw [if_neg hs, if_neg fun he => hs ((Slot.eq_iff k k').mp he).1]

theorem flagOf_modify (w : Waitlist) (t t' : TxnId) (k k' : Slot)
    (f : Dict ℤ (Dict String ℕ) → Dict ℤ (Dict String ℕ))
    (hf : ∀ shards k', k' ≠ k → cellOf (f shards) k' = cellOf shards k') :
    flagOf (w.modify t f) t' k' =
      if t' = t ∧ k' = k then (w.find t).bind fun shards => cellOf (f shards) k
      else flagOf w t' k' := by
  rw [flagOf_eq, flagOf_eq, find_modify]
  rcases eq_or_ne t' t with rfl | ht
  · rw [if_pos rfl, bind_map]
    rcases eq_or_ne k' k with rfl | hk
    · rw [if_pos ⟨rfl, rfl⟩]; rfl
    · rw [if_neg fun hc => hk hc.2]
      cases w.find t' with
      | none => rfl
      | some shards => exact hf shards k' hk
  · rw [if_neg ht, if_neg fun hc => ht hc.1]

theorem flagOf_markWait (w : Waitlist) (t : TxnId) (k : Slot) (t' : TxnId) (k' : Slot) :
    flagOf (markWait w t k) t' k' =
      if t' = t ∧ k' = k then (flagOf w t k).map fun _ => 1 else flagOf w t' k' := by
  have hcols : ∀ (cols : Dict String ℕ) c, c ≠ k.col →
      (cols.modify k.col fun _ => 1).find c = cols.find c := by
    intro cols c hc
    rw [find_modify, if_neg hc]
  rw [markWait, flagOf_modify _ _ _ _ _ _ fun shards k' hk => by
    rw [cellOf_modify _ _ _ _ hcols, if_neg hk]]
  refine if_congr Iff.rfl ?_ rfl
  rw [flagOf_eq]
  cases w.find t with
  | none => rfl
  | some shards =>
    rw [bind_some, bind_some, cellOf_modify _ _ _ _ hcols, if_pos rfl, cellOf]
    cases shards.find k.shard with
    | none => rfl
    | some cols => rw [bind_some, bind_some, find_modify, if_pos rfl]

theorem cellOf_insert_ne (shards : Dict ℤ (Dict String ℕ)) {k k' : Slot} (hk : k' ≠ k) :
    cellOf (shards.insert k.shard (empty.insert k.col 0)) k' = cellOf shards k' := by
  rw [cellOf, cellOf, find_insert]
  rcases eq_or_ne k'.shard k.shard with hs | hs
  · rw [if_pos hs, hs, bind_some]
    cases shards.find k.shard with
    | none =>
      rw [getD_none, find_insert,
        if_neg fun hc => hk ((Slot.eq_iff k k').mpr ⟨hs, hc⟩)]
      rfl
    | some cols => rfl
  · rw [if_neg hs]

theorem flagOf_addWait (k : Slot) (w : Waitlist) (t t' : TxnId) (k' : Slot) :
    flagOf (addWait k w t) t' k' =
      if t' = t ∧ k' = k then some ((flagOf w t k).getD 0) else flagOf w t' k' := by
  have hnew : ∀ k', cellOf (empty.insert k.shard (empty.insert k.col 0)) k' =
      if k' = k then some 0 else none := by
    intro k'
    simp only [cellOf, find_insert, Slot.eq_iff]
    rcases eq_or_ne k'.shard k.shard with hs | hs
    · rcases eq_or_ne k'.col k.col with hc | hc <;> simp [hs, hc, find_insert]
    · simp [hs]
  unfold addWait
  cases hw : w.find t with
  | none =>
    rw [flagOf_eq, flagOf_eq, flagOf_eq, find_insert, hw]
    rcases eq_or_ne t' t with rfl | ht
    · rw [if_pos rfl, getD_none, bind_some, hnew, hw]
      simp
    · simp [ht]
  | some shards =>
    have hflag : flagOf w t k = cellOf shards k := by rw [flagOf_eq, hw]; rfl
    dsimp only
    cases hs : shards.find k.shard with
    | none =>
      have hcell : cellOf shards k = none := by rw [cellOf, hs]; rfl
      rw [flagOf_modify _ _ _ _ _ _ fun shards k' hk => cellOf_insert_ne shards hk, hw, hflag, hcell,
        bind_some, cellOf, find_insert, if_pos rfl, hs, getD_none,
        bind_some, find_insert, if_pos rfl]
      rfl
    | some cols =>
      have hcols : ∀ (cols : Dict String ℕ) c, c ≠ k.col → (cols.insert k.col 0).find c = cols.find c := by
        intro cols c hc
        rw [find_insert, if_neg hc]
      have hcell : cellOf shards k = cols.find k.col := by rw [cellOf, hs]; rfl
      rw [flagOf_modify _ _ _ _ _ _ fun shards k' hk => by rw [cellOf_modify _ _ _ _ hcols, if_neg hk],
        hw, hflag, hcell, bind_some, cellOf_modify _ _ _ _ hcols, if_pos rfl, hs,
        bind_some, find_insert, if_pos rfl]

theorem flagOf_addWaits (k : Slot) (t' : TxnId) (k' : Slot) : ∀ (ts : List TxnId) (w : Waitlist),
    flagOf (ts.foldl (addWait k) w) t' k' =
      if t' ∈ ts ∧ k' = k then some ((flagOf w t' k').getD 0) else flagOf w t' k'
  | [], w => by simp
  | t :: ts, w => by
    rw [foldl_cons, flagOf_addWaits k t' k' ts, flagOf_addWait]
    rcases eq_or_ne k' k with rfl | hk
    · rcases eq_or_ne t' t with rfl | ht
      · simp
      · simp [ht]
    · simp [hk]

theorem flagOf_dropEmpty (w : Waitlist) (t t' : TxnId) (k : Slot) :
    flagOf (dropEmpty w t) t' k = flagOf w t' k := by
  unfold dropEmpty
  cases hw : w.find t with
  | none => rfl
  | some shards =>
    dsimp only
    split
    case isTrue he =>
      rw [flagOf_eq, flagOf_eq, find_erase]
      rcases eq_or_ne t' t with rfl | ht
      · rw [if_pos rfl, hw, bind_some, cellOf, find_of_isEmpty he]; rfl
      · rw [if_neg ht]
    case isFalse => rfl

theorem cellOf_dropEmpty (shards : Dict ℤ (Dict String ℕ)) (i : ℤ) (k : Slot) :
    cellOf (dropEmpty shards i) k = cellOf shards k := by
  unfold dropEmpty
  cases hs : shards.find i with
  | none => rfl
  | some cols =>
    dsimp only
    split
    case isTrue he =>
      rw [cellOf, cellOf, find_erase]
      rcases eq_or_ne k.shard i with rfl | hi
      · rw [if_pos rfl, hs, bind_some, find_of_isEmpty he]; rfl
      · rw [if_neg hi]
    case isFalse => rfl

theorem flagOf_pruneWait (w : Waitlist) (t : TxnId) (k : Slot) (t' : TxnId) (k' : Slot) :
    flagOf (pruneWait w t k) t' k' = flagOf w t' k' ∨
      ((∃ n, flagOf w t' k' = some (n + 1)) ∧ flagOf (pruneWait w t k) t' k' = none) := by
  unfold pruneWait
  split
  case h_1 n hn =>
    have hcols : ∀ (cols : Dict String ℕ) c, c ≠ k.col → (cols.erase k.col).find c = cols.find c := by
      intro cols c hc
      rw [find_erase, if_neg hc]
    rw [flagOf_dropEmpty, flagOf_modify _ _ _ _ _ _ fun shards k' hk => by
      rw [cellOf_dropEmpty, cellOf_modify _ _ _ _ hcols, if_neg hk]]
    split
    case isTrue hc =>
      obtain ⟨rfl, rfl⟩ := hc
      refine .inr ⟨⟨n, hn⟩, ?_⟩
      cases w.find t' with
      | none => rfl
      | some shards =>
        rw [bind_some, cellOf_dropEmpty, cellOf_modify _ _ _ _ hcols, if_pos rfl]
        cases shards.find k'.shard with
        | none => rfl
        | some cols => rw [bind_some, find_erase, if_pos rfl]
    case isFalse => exact .inl rfl
  case h_2 => exact .inl rfl

/-! ### Entries -/

/-- `A` holds of every pair on the waitlist. -/
def AllWait (A : TxnId → Slot → Prop) (w : Waitlist) : Prop :=
  w.All fun t shards => shards.All fun i cols => cols.All fun c _ => A t ⟨i, c⟩

variable {A : TxnId → Slot → Prop}

theorem AllWait.mem (h : AllWait A w) {e : TxnId × Slot} (he : e ∈ waitEntries w) : A e.1 e.2 := by
  obtain ⟨a, ha, he⟩ := mem_flatMap.mp he
  obtain ⟨b, hb, he⟩ := mem_flatMap.mp he
  obtain ⟨c, hc, rfl⟩ := mem_map.mp he
  exact h a ha b hb c hc

theorem AllWait.mono {A B : TxnId → Slot → Prop} (h : AllWait A w)
    (hAB : ∀ t k, A t k → B t k) : AllWait B w :=
  fun a ha b hb c hc => hAB _ _ (h a ha b hb c hc)

theorem allWait_addWait (h : AllWait A w) {t : TxnId}
    {k : Slot} (ht : A t k) : AllWait A (addWait k w t) := by
  have hcol : (empty.insert k.col 0).All fun c (_ : ℕ) => A t ⟨k.shard, c⟩ :=
    all_insert all_empty ht
  unfold addWait
  split
  · exact all_insert h (all_insert all_empty hcol)
  · split
    · exact all_modify h fun shards hsh => all_insert hsh hcol
    · exact all_modify h fun shards hsh => all_modify hsh fun cols hc =>
        all_insert hc ht

theorem allWait_addWaits {k : Slot} : ∀ {ts : List TxnId} {w : Waitlist},
    AllWait A w → (∀ t ∈ ts, A t k) → AllWait A (ts.foldl (addWait k) w)
  | [], _, h, _ => h
  | t :: ts, _, h, hts => by
    rw [foldl_cons]
    exact allWait_addWaits (allWait_addWait h (hts t (mem_cons_self ..)))
      fun x hx => hts x (mem_cons_of_mem _ hx)

theorem allWait_markWait (h : AllWait A w) (t : TxnId) (k : Slot) : AllWait A (markWait w t k) :=
  all_modify h fun _ hsh => all_modify hsh fun _ hc => all_modify hc fun _ hv => hv

theorem all_dropEmpty {K B C : Type} [DecidableEq K] [DecidableEq B] {P : K → Dict B C → Prop}
    {d : Dict K (Dict B C)} (h : d.All P) (k : K) : (dropEmpty d k).All P := by
  unfold dropEmpty
  split
  · exact h
  · split
    · exact all_erase h k
    · exact h

theorem allWait_pruneWait (h : AllWait A w) (t : TxnId)
    (k : Slot) : AllWait A (pruneWait w t k) := by
  unfold pruneWait
  split
  · refine all_dropEmpty (all_modify h fun shards hsh => ?_) t
    exact all_dropEmpty (all_modify hsh fun _ hc => all_erase hc _) _
  · exact h

end Fiss.Olap
