import Fiss.Occ.Exec

/-! When a transaction of the optimistic scheme comes through its own checks. The versions it has
    recorded are never above those of now, so `__DebugCheckReadVersion` passes only where a column
    that is accessed again has not been changed since it was first read; `__DebugVersionCheck`
    compares two versions that were recorded at different times, and passes if nothing was changed
    between them. A row that was written to must still be in a table when the write is committed. -/

namespace Fiss.Occ

open Memdb Function Option List Prod Dict
open Function (update_self update_of_ne)

variable {D : Type} {rows rows' : ℕ → VersionedRow D} {t t' : TxnOCC D} {row col tbl : ℕ}

/-- The versions a transaction has recorded are not above those of the rows, and those of a row it
    removes are not above those it has read of it. -/
structure Recorded (rows : ℕ → VersionedRow D) (t : TxnOCC D) : Prop where
  read : t.verCheckRead.All fun k ver => ver ≤ (rows k.1).ver k.2
  write : t.verCheckWrite.All fun k ver => ver ≤ (rows k.1).ver k.2
  order : t.verCheckRead.All fun k verRead =>
    ∀ verWrite, t.verCheckWrite.find k = some verWrite → verWrite ≤ verRead

theorem recorded_empty (rows : ℕ → VersionedRow D) : Recorded rows {} :=
  ⟨all_empty, all_empty, all_empty⟩

theorem Recorded.mono (h : Recorded rows t)
    (hver : ∀ row col, (rows row).ver col ≤ (rows' row).ver col) : Recorded rows' t where
  read := fun e he => (h.read e he).trans (hver _ _)
  write := fun e he => (h.write e he).trans (hver _ _)
  order := h.order

theorem Recorded.versionCheck (h : Recorded rows t) : t.versionCheck rows =
    some (TxnOCC.unchanged rows t.verCheckRead && TxnOCC.unchanged rows t.verCheckWrite) := by
  refine if_pos ?_
  rw [TxnOCC.debugVersionCheck, List.all_eq_true]
  intro e he
  cases hfind : t.verCheckWrite.find e.1 with
  | none => rfl
  | some verWrite => exact decide_eq_true (h.order e he verWrite hfind)

theorem debugCheckReadVersion_of_unchanged {verNow : ℕ}
    (h : ∀ e ∈ t.verCheckRead.entries, e.1 = (row, col) → verNow = e.2) :
    t.debugCheckReadVersion (row, col) verNow = true := by
  unfold TxnOCC.debugCheckReadVersion
  cases hfind : t.verCheckRead.find (row, col) with
  | none => rfl
  | some verRead => exact decide_eq_true (h _ (mem_entries_of_find hfind) rfl).le

/-- Where a column of a table is accessed that the transaction has not written, what it has read of
    it is unchanged. -/
def Steady (rows : ℕ → VersionedRow D) (t : TxnOCC D) (row col : ℕ) : Prop :=
  (rows row).tbl ≠ none → (t.updates.find (row, col)).isNone →
    t.verCheckRead.All fun k ver => k = (row, col) → (rows row).ver col = ver

theorem Recorded.readColumn (h : Recorded rows t) (hvalid : t.debugCheckRowValid row = true)
    (hsteady : Steady rows t row col) :
    ∃ p, t.readColumn row col (rows row) = some p ∧ Recorded rows p.2 := by
  unfold TxnOCC.readColumn
  rw [if_pos hvalid]
  split
  · exact ⟨_, rfl, h⟩
  · next htbl =>
    cases hfind : t.updates.find (row, col) with
    | some value => exact ⟨_, rfl, h⟩
    | none =>
      have hread := all_insert (k := (row, col)) (v := (rows row).ver col)
        (hsteady htbl (by rw [hfind]; rfl)) fun _ => rfl
      refine ⟨_, if_pos (debugCheckReadVersion_of_unchanged fun e he => hread e he), ?_, h.write,
        ?_⟩
      · exact all_insert h.read le_rfl
      · refine all_insert h.order fun verWrite hwrite => ?_
        exact h.write _ (mem_entries_of_find hwrite)

theorem Recorded.writeColumn (h : Recorded rows t) (hvalid : t.debugCheckRowValid row = true)
    (hsteady : Steady rows t row col) (value : D) :
    ∃ p, t.writeColumn row col value (rows row) = some p ∧ Recorded rows p.2 ∧
      p.1.ver = (rows row).ver := by
  unfold TxnOCC.writeColumn
  rw [if_pos hvalid]
  split
  · exact ⟨_, rfl, h, rfl⟩
  · next htbl =>
    cases hfind : t.updates.find (row, col) with
    | some value => exact ⟨_, rfl, { h with }, rfl⟩
    | none =>
      have hread := hsteady htbl (by rw [hfind]; rfl)
      exact ⟨_, if_pos (debugCheckReadVersion_of_unchanged fun e he => hread e he), { h with }, rfl⟩

theorem Recorded.insertRow (h : Recorded rows t) (htbl : (rows row).tbl = none) (tbl : ℕ) :
    ∃ t', t.insertRow tbl row (rows row) = some t' ∧ Recorded rows t' :=
  ⟨_, if_pos htbl, { h with }⟩

theorem find_rememberRow {r : VersionedRow D} {m : Dict (ℕ × ℕ) ℕ} {k : ℕ × ℕ} {ver : ℕ}
    (h : (TxnOCC.rememberRow row r m).find k = some ver) :
    m.find k = some ver ∨ k.1 = row ∧ ver = r.ver k.2 := by
  refine foldlRecOn (motive := fun m' : Dict (ℕ × ℕ) ℕ => m'.find k = some ver →
    m.find k = some ver ∨ k.1 = row ∧ ver = r.ver k.2) (range r.columns) _ .inl
    (fun m' hm' col _ hfind => ?_) h
  rw [find_insert] at hfind
  rcases eq_or_ne k (row, col) with rfl | hne
  · rw [if_pos rfl] at hfind
    cases hm : m'.find (row, col) with
    | none =>
      rw [hm] at hfind
      exact .inr ⟨rfl, (some.inj hfind).symm⟩
    | some ver' =>
      rw [hm] at hfind
      exact hm' (hm.trans hfind)
  · rw [if_neg hne] at hfind
    exact hm' hfind

theorem Recorded.removeRow (h : Recorded rows t) (hvalid : t.debugCheckRowValid row = true)
    (hsteady : (tbl, row) ∉ t.inserts →
      t.verCheckRead.All fun k ver => k.1 = row → (rows row).ver k.2 = ver) :
    ∃ t', t.removeRow tbl row (rows row) = some t' ∧ Recorded rows t' := by
  unfold TxnOCC.removeRow
  rw [if_pos hvalid]
  split
  · exact ⟨_, rfl, { h with }⟩
  · next hinserts =>
    refine ⟨_, rfl, h.read, ?_, fun e he verWrite hwrite => ?_⟩
    · exact foldlRecOn (motive := fun m : Dict (ℕ × ℕ) ℕ =>
        m.All fun k ver => ver ≤ (rows k.1).ver k.2) _ _ h.write
        fun m hm col _ => all_insert hm le_rfl
    · rcases find_rememberRow hwrite with hwrite | ⟨hrow, rfl⟩
      · exact h.order e he verWrite hwrite
      · exact (hsteady hinserts e he hrow).le

/-! ### Commits -/

/-- Versions have only gone up, and no row has left its table. -/
structure Onward (rows rows' : ℕ → VersionedRow D) : Prop where
  ver : ∀ row col, (rows row).ver col ≤ (rows' row).ver col
  tbl : ∀ row, (rows row).tbl ≠ none → (rows' row).tbl ≠ none

theorem Onward.refl (rows : ℕ → VersionedRow D) : Onward rows rows :=
  ⟨fun _ _ => le_rfl, fun _ h => h⟩

theorem Onward.trans {rows'' : ℕ → VersionedRow D} (h : Onward rows rows')
    (h' : Onward rows' rows'') : Onward rows rows'' :=
  ⟨fun row col => (h.ver row col).trans (h'.ver row col),
    fun row htbl => h'.tbl row (h.tbl row htbl)⟩

theorem onward_update {r : VersionedRow D} (hver : ∀ col, (rows row).ver col ≤ r.ver col)
    (htbl : (rows row).tbl ≠ none → r.tbl ≠ none) : Onward rows (update rows row r) := by
  constructor
  · intro row' col
    rcases eq_or_ne row' row with rfl | hne
    · rw [update_self]
      exact hver col
    · rw [update_of_ne hne]
  · intro row'
    rcases eq_or_ne row' row with rfl | hne
    · rw [update_self]
      exact htbl
    · rw [update_of_ne hne]
      exact id

theorem exists_run_insertInto {ps : List (ℕ × ℕ)} (hnodup : (ps.map snd).Nodup)
    (htbl : ∀ row ∈ ps.map snd, (rows row).tbl = none) :
    ∃ rows', run insertInto rows ps = some rows' ∧ Onward rows rows' := by
  induction ps generalizing rows with
  | nil => exact ⟨rows, rfl, .refl rows⟩
  | cons p ps ih =>
    obtain ⟨hnot, hnodup⟩ := nodup_cons.mp hnodup
    have hp : (rows p.2).tbl = none := htbl p.2 mem_cons_self
    have htbl' : ∀ row ∈ ps.map snd,
        (update rows p.2 { rows p.2 with tbl := some p.1 } row).tbl = none := by
      intro row hrow
      have hne : row ≠ p.2 := fun heq => hnot (heq ▸ hrow)
      rw [update_of_ne hne]
      exact htbl row (mem_cons_of_mem _ hrow)
    obtain ⟨rows', hrows', honward⟩ := ih hnodup htbl'
    refine ⟨rows', run_cons.mpr ⟨_, if_pos hp, hrows'⟩, Onward.trans ?_ honward⟩
    exact onward_update (fun _ => le_rfl) fun hne => absurd hp hne

theorem le_incrColumnVer (r : VersionedRow D) (col col' : ℕ) :
    r.ver col' ≤ (r.incrColumnVer col).ver col' := by
  change r.ver col' ≤ update r.ver col (r.ver col + 1) col'
  rcases eq_or_ne col' col with rfl | hne
  · rw [update_self]
    exact Nat.le_succ _
  · rw [update_of_ne hne]

theorem exists_run_applyUpdate {es : List ((ℕ × ℕ) × D)}
    (htbl : ∀ e ∈ es, (rows e.1.1).tbl ≠ none) :
    ∃ rows', run applyUpdate rows es = some rows' ∧ Onward rows rows' := by
  induction es generalizing rows with
  | nil => exact ⟨rows, rfl, .refl rows⟩
  | cons e es ih =>
    have hfirst : Onward rows
        (update rows e.1.1 (((rows e.1.1).update e.1.2 e.2).incrColumnVer e.1.2)) :=
      onward_update (le_incrColumnVer ((rows e.1.1).update e.1.2 e.2) e.1.2) id
    obtain ⟨rows', hrows', honward⟩ := ih fun e' he' =>
      hfirst.tbl e'.1.1 (htbl e' (mem_cons_of_mem _ he'))
    exact ⟨rows', run_cons.mpr ⟨_, if_neg (htbl e mem_cons_self), hrows'⟩,
      hfirst.trans honward⟩

theorem le_removeFrom (rows : ℕ → VersionedRow D) (p : ℕ × ℕ) (row col : ℕ) :
    (rows row).ver col ≤ (removeFrom rows p row).ver col := by
  unfold removeFrom
  rcases eq_or_ne row p.2 with rfl | hne
  · have hle : (rows p.2).ver col ≤ ((range (rows p.2).columns).foldl
        (fun r col => r.incrColumnVer col) (rows p.2)).ver col :=
      foldlRecOn (motive := fun r : VersionedRow D => (rows p.2).ver col ≤ r.ver col) _ _
        le_rfl fun r hr col' _ => hr.trans (le_incrColumnVer r col' col)
    rw [update_self]
    split <;> exact hle
  · rw [update_of_ne hne]

theorem TxnOCC.exists_apply (hnodup : t.insertedRows.Nodup)
    (hinserted : ∀ row ∈ t.insertedRows, (rows row).tbl = none)
    (hupdated : ∀ row ∈ t.updatedRows, (rows row).tbl ≠ none) :
    ∃ rows', t.apply rows = some rows' ∧ ∀ row col, (rows row).ver col ≤ (rows' row).ver col := by
  obtain ⟨rows1, hrows1, honward1⟩ := exists_run_insertInto hnodup hinserted
  have hupdated1 : ∀ e ∈ t.updates.entries, (rows1 e.1.1).tbl ≠ none := fun e he =>
    honward1.tbl _ (hupdated _ (mem_map_of_mem (mem_map_of_mem he)))
  obtain ⟨rows2, hrows2, honward2⟩ := exists_run_applyUpdate hupdated1
  refine ⟨_, by rw [apply, hrows1, bind_some, hrows2, map_some], fun row col => ?_⟩
  exact foldlRecOn (motive := fun rows' : ℕ → VersionedRow D =>
    (rows row).ver col ≤ (rows' row).ver col) t.removes _ ((honward1.trans honward2).ver row col)
    fun rows' hrows' p _ => hrows'.trans (le_removeFrom rows' p row col)

namespace OCCSched

variable {s s' : OCCSched D} {e : Event D} {txn : ℕ}

/-- The operations are used as they are meant: a transaction leaves alone the rows it has removed,
    and inserts rows that are in no table, each once; it is prepared once, and committed only when
    it is prepared. -/
def Used (s : OCCSched D) : Event D → Prop
  | .read txn row _ | .write txn row _ _ | .remove txn _ row =>
    (s.getMdbTxn txn).debugCheckRowValid row = true
  | .insert _ _ row => (s.rows row).tbl = none
  | .prepare txn => (s.getMdbTxn txn).verified = false
  | .commit txn => (s.mdbTxns.find txn).isSome ∧ (s.getMdbTxn txn).verified = true ∧
      (s.getMdbTxn txn).insertedRows.Nodup ∧
        ∀ row ∈ (s.getMdbTxn txn).insertedRows, (s.rows row).tbl = none
  | .abort txn => (s.mdbTxns.find txn).isSome
  | .commitTxn _ => True

/-- No commit has come between two accesses of a transaction to a column, of which the first was a
    read, or between its reads of a row and its removal of it; the rows it writes are still there.
    And `TxnOCC::commit` is called only when it will refuse. -/
def Undisturbed (s : OCCSched D) : Event D → Prop
  | .read txn row col | .write txn row col _ => Steady s.rows (s.getMdbTxn txn) row col
  | .remove txn tbl row => (tbl, row) ∉ (s.getMdbTxn txn).inserts →
      (s.getMdbTxn txn).verCheckRead.All fun k ver => k.1 = row → (s.rows row).ver k.2 = ver
  | .commit txn => ∀ row ∈ (s.getMdbTxn txn).updatedRows, (s.rows row).tbl ≠ none
  | .commitTxn txn => (TxnOCC.unchanged s.rows (s.getMdbTxn txn).verCheckRead &&
      TxnOCC.unchanged s.rows (s.getMdbTxn txn).verCheckWrite) = false
  | .insert .. | .prepare _ | .abort _ => True

/-- All transactions have recorded versions that there were. -/
def Sound (s : OCCSched D) : Prop :=
  ∀ txn t, s.mdbTxns.find txn = some t → Recorded s.rows t

theorem Sound.getMdbTxn (h : Sound s) (txn : ℕ) : Recorded s.rows (s.getMdbTxn txn) := by
  unfold OCCSched.getMdbTxn
  cases hfind : s.mdbTxns.find txn with
  | none => exact recorded_empty s.rows
  | some t => exact h txn t hfind

theorem Sound.set (h : Sound s) (htxns : s'.mdbTxns = s.mdbTxns.set txn t)
    (hver : ∀ row, (s'.rows row).ver = (s.rows row).ver) (ht : Recorded s.rows t) : Sound s' := by
  intro txn' t' hfind
  have hle : ∀ row col, (s.rows row).ver col ≤ (s'.rows row).ver col := fun row col => by
    rw [hver]
  rw [htxns, OrdMap.find_set] at hfind
  split at hfind
  · exact some.inj hfind ▸ ht.mono hle
  · exact (h txn' t' hfind).mono hle

theorem Sound.erase (h : Sound s) (htxns : s'.mdbTxns = s.mdbTxns.erase txn)
    (hver : ∀ row col, (s.rows row).ver col ≤ (s'.rows row).ver col) : Sound s' := by
  intro txn' t' hfind
  rw [htxns, OrdMap.find_erase] at hfind
  exact (h txn' t' (ite_none_left_eq_some.mp hfind).2).mono hver

theorem Sound.prepare (h : Sound s) (hunverified : (s.getMdbTxn txn).verified = false) :
    ∃ ok s', s.prepare txn = some (ok, s') ∧ Sound s' := by
  have ht := h.getMdbTxn txn
  unfold OCCSched.prepare
  rw [if_neg (by rw [hunverified]; exact Bool.false_ne_true), ht.versionCheck, map_some]
  split
  · dsimp only
    split
    · exact ⟨_, _, rfl, h.set rfl (fun _ => rfl) { ht with }⟩
    · exact ⟨_, _, rfl, h.set rfl (fun _ => rfl) { ht with }⟩
  · exact ⟨_, _, rfl, h.set rfl (fun _ => rfl) ht⟩

theorem Sound.commit (h : Sound s) (hused : Used s (.commit txn))
    (hupdated : ∀ row ∈ (s.getMdbTxn txn).updatedRows, (s.rows row).tbl ≠ none) :
    ∃ s', s.commit txn = some s' ∧ Sound s' := by
  obtain ⟨hsome, hverified, hnodup, hinserted⟩ := hused
  obtain ⟨t, hfind⟩ := isSome_iff_exists.mp hsome
  obtain ⟨rows, hrows, hver⟩ := TxnOCC.exists_apply hnodup hinserted hupdated
  rw [getMdbTxn_eq hfind] at hverified hrows
  refine ⟨_, by rw [OCCSched.commit, hfind, bind_some, if_pos hverified, hrows,
    map_some], ?_⟩
  exact h.erase rfl hver

theorem step_returns (h : Sound s) (hused : Used s e) (hundisturbed : Undisturbed s e) :
    ∃ s', step s e = some s' ∧ Sound s' := by
  cases e with
  | read txn row col =>
    obtain ⟨p, hp, hrecorded⟩ := (h.getMdbTxn txn).readColumn hused hundisturbed
    exact ⟨s.setTxn txn p.2, by rw [step, hp, map_some], h.set rfl (fun _ => rfl) hrecorded⟩
  | write txn row col value =>
    obtain ⟨p, hp, hrecorded, hver⟩ := (h.getMdbTxn txn).writeColumn hused hundisturbed value
    exact ⟨{ s.setTxn txn p.2 with rows := update s.rows row p.1 },
      by rw [step, hp, map_some],
      h.set rfl (proj_update VersionedRow.ver hver) hrecorded⟩
  | insert txn tbl row =>
    obtain ⟨t, ht, hrecorded⟩ := (h.getMdbTxn txn).insertRow hused tbl
    exact ⟨s.setTxn txn t, by rw [step, ht, map_some], h.set rfl (fun _ => rfl) hrecorded⟩
  | remove txn tbl row =>
    obtain ⟨t, ht, hrecorded⟩ := (h.getMdbTxn txn).removeRow hused hundisturbed
    exact ⟨s.setTxn txn t, by rw [step, ht, map_some], h.set rfl (fun _ => rfl) hrecorded⟩
  | prepare txn =>
    obtain ⟨ok, s', hs', hsound⟩ := h.prepare hused
    exact ⟨s', by rw [step, hs', map_some], hsound⟩
  | commit txn => exact h.commit hused hundisturbed
  | abort txn =>
    obtain ⟨t, hfind⟩ := isSome_iff_exists.mp hused
    refine ⟨_, by rw [step, abort, hfind, map_some], ?_⟩
    exact h.erase rfl fun _ _ => le_rfl
  | commitTxn txn =>
    refine ⟨s, ?_, h⟩
    rw [step, TxnOCC.commit, (h.getMdbTxn txn).versionCheck, hundisturbed]
    rfl

instance (s : OCCSched D) : (e : Event D) → Decidable (Used s e)
  | .read .. | .write .. | .remove .. => inferInstanceAs (Decidable (_ = true))
  | .insert _ _ row => inferInstanceAs (Decidable ((s.rows row).tbl = none))
  | .prepare _ => inferInstanceAs (Decidable (_ = false))
  | .commit _ => inferInstanceAs (Decidable (_ ∧ _ ∧ _ ∧ ∀ row ∈ _, _))
  | .abort _ => inferInstanceAs (Decidable (_ = true))
  | .commitTxn _ => isTrue trivial

instance (s : OCCSched D) : (e : Event D) → Decidable (Undisturbed s e)
  | .read .. | .write .. => inferInstanceAs (Decidable (_ → _ → ∀ e ∈ _, _))
  | .remove .. => inferInstanceAs (Decidable (_ → ∀ e ∈ _, _))
  | .commit _ => inferInstanceAs (Decidable (∀ row ∈ _, _))
  | .commitTxn _ => inferInstanceAs (Decidable (_ = false))
  | .insert .. | .prepare _ | .abort _ => isTrue trivial

/-- In every run of undisturbed operations every one of them returns, and so does every `Prepare`
    and every commit. -/
theorem checks_pass (rows : ℕ → VersionedRow D) (es : List (Event D))
    (h : Allowed step (fun s e => Used s e ∧ Undisturbed s e) { rows } es) :
    (run step { rows } es).isSome := by
  have hinit : Sound ({ rows } : OCCSched D) := fun _ _ hfind => by cases hfind
  obtain ⟨s', hs', -⟩ := run_of_allowed (fun s e hsound hC => step_returns hsound hC.1 hC.2) hinit h
  rw [hs']
  rfl

/-- All rows are in a table. -/
def allInTable (_ : ℕ) : VersionedRow ℕ where
  tbl := some 0
  columns := 1
  data _ := 0

/-- Transactions 1 and 2 read a column; 2 writes it, reads it again and commits. -/
def overtake : List (Event ℕ) :=
  [.read 1 0 0, .read 2 0 0, .write 2 0 0 7, .read 2 0 0, .prepare 2, .commit 2]

/-- Then 1 is refused, and aborted. -/
theorem checks_pass_overtake :
    ((run step { rows := allInTable } overtake).bind (prepare 1)).map fst = some false ∧
      (run step { rows := allInTable } (overtake ++ [.commitTxn 1, .prepare 1, .abort 1])).isSome :=
  ⟨by decide +kernel,
    checks_pass allInTable (overtake ++ [.commitTxn 1, .prepare 1, .abort 1]) (by decide +kernel)⟩

/-- But if 1 reads the column again, its check fails. -/
theorem second_read_fails : Allowed step Used { rows := allInTable } (overtake ++ [.read 1 0 0]) ∧
    (run step { rows := allInTable } (overtake ++ [.read 1 0 0])).isNone := by
  decide +kernel

end OCCSched

end Fiss.Occ
