import Fiss.Occ.Exec

/-! What `Prepare` protects. A prepared transaction has a lock of every row it has read and is the
    writer of every row it will write, so that another one that changes such a row by writing is not
    prepared. Nothing locks a row that is to be removed: against removals only the versions are
    compared, and only in `Prepare`. Two prepared transactions must not meet in a row that one of
    them removes. -/

namespace Fiss.Occ

open Memdb List Function Prod OrdMap RWLock TxnOCC Locking
open Option (some.inj ite_none_right_eq_some map_eq_some_iff)

variable {D : Type}

/-! ### Taking and giving up locks -/

namespace Locking

variable {txn : ℕ} {take : RWLock → Bool × RWLock} {P : RWLock → Prop} {l : Locking}

theorem lockRows_keeps (hkeeps : ∀ l, P l → P (take l).2) {row : ℕ} (rows : List ℕ)
    (h : P (l.locks row)) : P ((l.lockRows take rows).2.locks row) := by
  induction rows generalizing l with
  | nil => exact h
  | cons row' rows ih =>
    rw [lockRows]
    split
    · exact ih (keeps_update hkeeps h row')
    · exact keeps_update hkeeps h row'

theorem lockRows_granted (hkeeps : ∀ l, P l → P (take l).2)
    (hgranted : ∀ l, (take l).1 = true → P (take l).2) {rows : List ℕ}
    (hok : (l.lockRows take rows).1 = true) :
    ∀ row ∈ rows, P ((l.lockRows take rows).2.locks row) := by
  induction rows generalizing l with
  | nil => exact fun row hrow => by cases hrow
  | cons row' rows ih =>
    rw [lockRows] at hok ⊢
    split at hok
    · next htake =>
      rw [if_pos htake]
      refine forall_mem_cons.mpr ⟨lockRows_keeps hkeeps rows ?_, ih hok⟩
      simpa using hgranted _ htake
    · cases hok

theorem lockRows_frame (htakes : RWLock.Takes txn take) (rows : List ℕ) (row : ℕ) :
    RWLock.Frame txn (l.locks row) ((l.lockRows take rows).2.locks row) :=
  lockRows_keeps (P := RWLock.Frame txn (l.locks row)) (fun _ h => h.trans (htakes.frame _)) rows
    (.refl txn _)

end Locking

theorem TxnOCC.lockCommit_frame (txn : ℕ) (locks : ℕ → RWLock) (t : TxnOCC D) (row : ℕ) :
    RWLock.Frame txn (locks row) ((t.lockCommit txn locks).2.locks row) := by
  have hreads := lockRows_frame (l := ⟨locks, t.locks⟩) (takes_rlockBy txn)
    t.readRows row
  unfold lockCommit
  dsimp only
  split
  · exact hreads.trans (lockRows_frame (takes_wlockBy txn) _ row)
  · exact hreads

theorem TxnOCC.lockCommit_granted {txn : ℕ} {locks : ℕ → RWLock} {t : TxnOCC D}
    (hok : (t.lockCommit txn locks).1 = true) :
    (∀ row ∈ t.readRows, ((t.lockCommit txn locks).2.locks row).Holds txn) ∧
      ∀ row ∈ t.updatedRows, ((t.lockCommit txn locks).2.locks row).Writes txn := by
  unfold lockCommit at hok ⊢
  dsimp only at hok ⊢
  split at hok
  · next hreads =>
    rw [if_pos hreads]
    refine ⟨fun row hrow => ?_, lockRows_granted (P := fun l => l.Writes txn)
      (fun l hl => hl.wlockBy) (fun l htake => wlockBy_granted htake) hok⟩
    -- a read lock may have become a write lock since
    exact lockRows_keeps (takes_wlockBy txn).keeps _
      (lockRows_granted (takes_rlockBy txn).keeps (takes_rlockBy txn).granted
        hreads row hrow)
  · next hreads => exact absurd hok hreads

theorem unlockRows_frame (txn : ℕ) (rows : List ℕ) (locks : ℕ → RWLock) (row : ℕ) :
    RWLock.Frame txn (locks row) (unlockRows txn rows locks row) := by
  refine foldlRecOn (motive := fun locks' : ℕ → RWLock =>
    RWLock.Frame txn (locks row) (locks' row)) rows _ (.refl txn _) fun locks' h row' _ => ?_
  exact h.trans (frame_update (frame_unlockBy txn) locks' row' row)

/-! ### What a commit does to the tables -/

theorem run_insertInto_of_notMem {row : ℕ} {ps : List (ℕ × ℕ)} {rows rows' : ℕ → VersionedRow D}
    (h : run insertInto rows ps = some rows') (hrow : row ∉ ps.map snd) : rows' row = rows row := by
  refine run_inv_mem (P := fun r : ℕ → VersionedRow D => r row = rows row)
    (fun r p r' hp hr hstep => ?_) rfl h
  obtain ⟨-, hstep⟩ := ite_none_right_eq_some.mp hstep
  obtain rfl := some.inj hstep
  exact (update_of_ne (ne_of_mem_of_not_mem (mem_map_of_mem hp) hrow).symm _ r).trans hr

theorem tbl_incrColumnVers (cols : List ℕ) (r : VersionedRow D) :
    (cols.foldl (fun r col => r.incrColumnVer col) r).tbl = r.tbl :=
  foldlRecOn (motive := fun r' : VersionedRow D => r'.tbl = r.tbl) cols _ rfl
    fun _ h _ _ => h

theorem TxnOCC.apply_tbl {t : TxnOCC D} {rows rows' : ℕ → VersionedRow D} {row : ℕ}
    (h : t.apply rows = some rows') (hrow : row ∉ t.insertedRows)
    (htbl : (rows row).tbl = none) : (rows' row).tbl = none := by
  obtain ⟨rows1, hrows1, h⟩ := Option.bind_eq_some_iff.mp h
  obtain ⟨rows2, hrows2, rfl⟩ := map_eq_some_iff.mp h
  have htbl1 : (rows1 row).tbl = none := by rw [run_insertInto_of_notMem hrows1 hrow, htbl]
  have htbl2 : (rows2 row).tbl = none := by
    refine run_inv (P := fun rows : ℕ → VersionedRow D => (rows row).tbl = none)
      (fun rows e rows' htbl hstep => ?_) htbl1 hrows2
    obtain ⟨hne, hstep⟩ := Option.ite_none_left_eq_some.mp hstep
    obtain rfl := some.inj hstep
    have hother : row ≠ e.1.1 := fun heq => hne (heq ▸ htbl)
    rw [update_of_ne hother, htbl]
  refine foldlRecOn (motive := fun rows : ℕ → VersionedRow D => (rows row).tbl = none)
    t.removes _ htbl2 fun rows htbl p _ => ?_
  unfold removeFrom
  rcases eq_or_ne row p.2 with rfl | hne
  · rw [update_self]
    split
    · rfl
    · rw [tbl_incrColumnVers, htbl]
  · rw [update_of_ne hne, htbl]

/-! ### What transactions touch and change -/

/-- The rows that the transaction has read from their tables, will write or will remove. -/
def TxnOCC.touchedRows (t : TxnOCC D) : List ℕ := t.readRows ++ t.updatedRows ++ t.removedRows

/-- The rows that its commit writes, removes or inserts. -/
def TxnOCC.changedRows (t : TxnOCC D) : List ℕ := t.updatedRows ++ t.removedRows ++ t.insertedRows

namespace TxnOCC

variable {t t' : TxnOCC D} {row col tbl : ℕ} {r r' : VersionedRow D} {value : D}

theorem mem_touchedRows {row : ℕ} :
    row ∈ t.touchedRows ↔ row ∈ t.readRows ∨ row ∈ t.updatedRows ∨ row ∈ t.removedRows := by
  rw [touchedRows, mem_append, mem_append, or_assoc]

/-- What an access to `row` does to the record of a transaction: if anything is added to what it
    touches, it is `row`, and then `P`. -/
structure Accesses (row : ℕ) (P : Prop) (t t' : TxnOCC D) : Prop where
  verified : t'.verified = t.verified
  touched : ∀ row' ∈ t'.touchedRows, row' ∈ t.touchedRows ∨ row' = row ∧ P

theorem Accesses.refl (row : ℕ) (P : Prop) (t : TxnOCC D) : Accesses row P t t :=
  ⟨rfl, fun _ h => .inl h⟩

theorem mem_rows_insert {V : Type} {m : Dict (ℕ × ℕ) V} {v : V} {row' : ℕ}
    (h : row' ∈ (m.insert (row, col) v).keys.map fst) : row' ∈ m.keys.map fst ∨ row' = row := by
  obtain ⟨k, hk, rfl⟩ := mem_map.mp h
  rw [Dict.mem_keys, Dict.find_insert] at hk
  rcases eq_or_ne k (row, col) with rfl | hne
  · exact .inr rfl
  · rw [if_neg hne, ← Dict.mem_keys] at hk
    exact .inl (mem_map_of_mem hk)

theorem readColumn_accesses (h : t.readColumn row col r = some (value, t')) :
    Accesses row (r.tbl ≠ none) t t' ∧ t'.inserts = t.inserts := by
  obtain ⟨-, h⟩ := ite_none_right_eq_some.mp h
  split at h
  · obtain ⟨-, rfl⟩ := Prod.mk.inj (some.inj h)
    exact ⟨.refl row _ t, rfl⟩
  · next htbl =>
    split at h
    · obtain ⟨-, rfl⟩ := Prod.mk.inj (some.inj h)
      exact ⟨.refl row _ t, rfl⟩
    · obtain ⟨-, h⟩ := ite_none_right_eq_some.mp h
      obtain ⟨-, rfl⟩ := Prod.mk.inj (some.inj h)
      refine ⟨⟨rfl, fun row' hrow => ?_⟩, rfl⟩
      rw [mem_touchedRows] at hrow ⊢
      rcases hrow with hread | hrow
      · rcases mem_rows_insert hread with hread | rfl
        · exact .inl (.inl hread)
        · exact .inr ⟨rfl, htbl⟩
      · exact .inl (.inr hrow)

theorem writeColumn_accesses (h : t.writeColumn row col value r = some (r', t')) :
    Accesses row (r.tbl ≠ none) t t' ∧ t'.inserts = t.inserts ∧ r'.tbl = r.tbl := by
  obtain ⟨-, h⟩ := ite_none_right_eq_some.mp h
  split at h
  · obtain ⟨rfl, rfl⟩ := Prod.mk.inj (some.inj h)
    exact ⟨.refl row _ t, rfl, rfl⟩
  · next htbl =>
    split at h
    · obtain ⟨rfl, rfl⟩ := Prod.mk.inj (some.inj h)
      refine ⟨⟨rfl, fun row' hrow => .inl ?_⟩, rfl, rfl⟩
      rw [mem_touchedRows, updatedRows, Dict.keys_modify] at hrow
      exact mem_touchedRows.mpr hrow
    · obtain ⟨-, h⟩ := ite_none_right_eq_some.mp h
      obtain ⟨rfl, rfl⟩ := Prod.mk.inj (some.inj h)
      refine ⟨⟨rfl, fun row' hrow => ?_⟩, rfl, rfl⟩
      rw [mem_touchedRows] at hrow ⊢
      rcases hrow with hread | hupdated | hremoved
      · exact .inl (.inl hread)
      · rcases mem_rows_insert hupdated with hupdated | rfl
        · exact .inl (.inr (.inl hupdated))
        · exact .inr ⟨rfl, htbl⟩
      · exact .inl (.inr (.inr hremoved))

theorem insertRow_accesses (h : t.insertRow tbl row r = some t') :
    Accesses row False t t' ∧ t'.inserts = t.inserts ++ [(tbl, row)] ∧ r.tbl = none := by
  obtain ⟨htbl, h⟩ := ite_none_right_eq_some.mp h
  obtain rfl := some.inj h
  refine ⟨⟨rfl, fun row' hrow => .inl ?_⟩, rfl, htbl⟩
  rw [mem_touchedRows] at hrow ⊢
  refine hrow.imp_right (Or.imp_right fun hremoved => ?_)
  obtain ⟨p, hp, rfl⟩ := mem_map.mp hremoved
  exact mem_map_of_mem (mem_of_mem_erase hp)

theorem updatedRows_eraseUpdates (row : ℕ) (t : TxnOCC D) :
    ∀ row' ∈ (eraseUpdates row t).updatedRows, row' ∈ t.updatedRows := by
  intro row' hrow
  obtain ⟨k, hk, rfl⟩ := mem_map.mp hrow
  obtain ⟨e, he, rfl⟩ := mem_map.mp hk
  exact mem_map_of_mem (mem_map_of_mem (mem_of_mem_filter he))

theorem removeRow_accesses (h : t.removeRow tbl row r = some t') :
    Accesses row ((tbl, row) ∉ t.inserts) t t' ∧ ∀ p ∈ t'.inserts, p ∈ t.inserts := by
  obtain ⟨-, h⟩ := ite_none_right_eq_some.mp h
  split at h
  · obtain rfl := some.inj h
    refine ⟨⟨rfl, fun row' hrow => .inl ?_⟩, fun p hp => mem_of_mem_erase hp⟩
    rw [mem_touchedRows] at hrow ⊢
    exact hrow.imp_right (Or.imp_left (updatedRows_eraseUpdates row _ row'))
  · next hinserts =>
    obtain rfl := some.inj h
    refine ⟨⟨rfl, fun row' hrow => ?_⟩, fun p hp => hp⟩
    rw [mem_touchedRows] at hrow ⊢
    rcases hrow with hread | hupdated | hremoved
    · exact .inl (.inl hread)
    · exact .inl (.inr (.inl (updatedRows_eraseUpdates row _ row' hupdated)))
    · obtain ⟨p, hp, rfl⟩ := mem_map.mp hremoved
      rcases mem_insert_iff.mp hp with rfl | hp
      · exact .inr ⟨rfl, hinserts⟩
      · exact .inl (.inr (.inr (mem_map_of_mem hp)))

end TxnOCC

namespace OCCSched

/-- Two prepared transactions do not meet in a row that one of them removes. -/
def Apart (s : OCCSched D) : Event D → Prop
  | .prepare txn => ∀ e ∈ s.mdbTxns.entries, e.1 ≠ txn → e.2.verified = true →
      (∀ row ∈ (s.getMdbTxn txn).removedRows, row ∉ e.2.touchedRows) ∧
        ∀ row ∈ e.2.removedRows, row ∉ (s.getMdbTxn txn).touchedRows
  | _ => True

/-- A transaction accesses rows only before it is prepared. A row that is inserted is new, and until
    its transaction commits no other one knows it. -/
def Proper (s : OCCSched D) : Event D → Prop
  | .read txn _ _ | .write txn _ _ _ => (s.getMdbTxn txn).verified = false
  | .insert txn _ row => (s.getMdbTxn txn).verified = false ∧
      ∀ e ∈ s.mdbTxns.entries, row ∉ e.2.touchedRows ∧ row ∉ e.2.insertedRows
  | .remove txn tbl row => (s.getMdbTxn txn).verified = false ∧
      ∀ e ∈ s.mdbTxns.entries, ∀ p ∈ e.2.inserts, p.2 = row → e.1 = txn ∧ p.1 = tbl
  | _ => True

/-- A commit changes no row that another prepared transaction touches. -/
def Protected (s : OCCSched D) : Event D → Prop
  | .commit txn => ∀ e ∈ s.mdbTxns.entries, e.1 ≠ txn → e.2.verified = true →
      ∀ row ∈ (s.getMdbTxn txn).changedRows, row ∉ e.2.touchedRows
  | _ => True

/-! ### The invariant -/

variable {s s' : OCCSched D} {e : Event D} {txn txn' row : ℕ} {t t' : TxnOCC D}

/-- `Prepare` of the transaction has succeeded, and it is not decided. -/
def Prepared (s : OCCSched D) (txn : ℕ) (t : TxnOCC D) : Prop :=
  s.mdbTxns.find txn = some t ∧ t.verified = true

/-- The row is in no table, and known to `txn` alone, which will insert it. -/
structure New (s : OCCSched D) (txn row : ℕ) : Prop where
  tbl : (s.rows row).tbl = none
  untouched : ∀ {txn' t'}, s.mdbTxns.find txn' = some t' → row ∉ t'.touchedRows
  only : ∀ {txn' t'}, s.mdbTxns.find txn' = some t' → txn' ≠ txn → row ∉ t'.insertedRows

structure Inv (s : OCCSched D) : Prop where
  reads : ∀ {txn t}, Prepared s txn t → ∀ row ∈ t.readRows, (s.locks row).Holds txn
  writes : ∀ {txn t}, Prepared s txn t → ∀ row ∈ t.updatedRows, (s.locks row).Writes txn
  apart : ∀ {txn t txn' t'}, Prepared s txn t → Prepared s txn' t' → txn ≠ txn' →
    ∀ row ∈ t.removedRows, row ∉ t'.touchedRows
  new : ∀ {txn t}, s.mdbTxns.find txn = some t → ∀ row ∈ t.insertedRows, New s txn row

theorem commit_spec (hstep : s.commit txn = some s') : ∃ t rows, Prepared s txn t ∧
    t.apply s.rows = some rows ∧ s'.rows = rows ∧ s'.mdbTxns = s.mdbTxns.erase txn ∧
      ∀ row, RWLock.Frame txn (s.locks row) (s'.locks row) := by
  obtain ⟨t, hfind, hstep⟩ := Option.bind_eq_some_iff.mp hstep
  obtain ⟨hverified, hstep⟩ := ite_none_right_eq_some.mp hstep
  obtain ⟨rows, hrows, rfl⟩ := map_eq_some_iff.mp hstep
  exact ⟨t, rows, ⟨hfind, hverified⟩, hrows, rfl, rfl, unlockRows_frame txn _ s.locks⟩

theorem Inv.protected (h : Inv s) (hstep : step s e = some s') : Protected s e := by
  cases e with
  | commit txn =>
    intro e he hne hverified row hrow htouched
    obtain ⟨t, -, hprepared, -⟩ := commit_spec hstep
    have hother : Prepared s e.1 e.2 := ⟨find_eq_some.mpr he, hverified⟩
    rw [getMdbTxn_eq hprepared.1] at hrow
    rcases mem_append.mp hrow with hrow | hinserted
    · rcases mem_append.mp hrow with hupdated | hremoved
      · have hwrites := h.writes hprepared row hupdated
        rcases mem_append.mp htouched with htouched | hremoved
        · rcases mem_append.mp htouched with hread | hupdated'
          · exact hne (hwrites.only (h.reads hother row hread))
          · exact hne (hwrites.only (h.writes hother row hupdated').holds)
        · exact h.apart hother hprepared hne row hremoved
            (mem_append_left _ (mem_append_right _ hupdated))
      · exact h.apart hprepared hother hne.symm row hremoved htouched
    · exact (h.new hprepared.1 row hinserted).untouched hother.1 htouched
  | _ => trivial

/-- What happens to one transaction leaves what is known of the others. -/
theorem Inv.set (h : Inv s) (htxns : s'.mdbTxns = s.mdbTxns.set txn t)
    (htbl : ∀ row, (s'.rows row).tbl = (s.rows row).tbl)
    (hframe : ∀ row, RWLock.Frame txn (s.locks row) (s'.locks row))
    (hlocked : t.verified = true → (∀ row ∈ t.readRows, (s'.locks row).Holds txn) ∧
      ∀ row ∈ t.updatedRows, (s'.locks row).Writes txn)
    (hapart : t.verified = true → ∀ {txn' t'}, txn' ≠ txn → Prepared s txn' t' →
      (∀ row ∈ t.removedRows, row ∉ t'.touchedRows) ∧ ∀ row ∈ t'.removedRows, row ∉ t.touchedRows)
    (htouched : ∀ {txn' t'}, txn' ≠ txn → s.mdbTxns.find txn' = some t' →
      ∀ row ∈ t'.insertedRows, row ∉ t.touchedRows)
    (hinserted : ∀ row ∈ t.insertedRows, New s txn row ∧ row ∉ t.touchedRows) : Inv s' := by
  have hself : s'.mdbTxns.find txn = some t := by rw [htxns, find_set_self]
  have hother : ∀ {txn'}, txn' ≠ txn → s'.mdbTxns.find txn' = s.mdbTxns.find txn' := fun hne => by
    rw [htxns, find_set_ne _ hne]
  have hold : ∀ {txn' t'}, txn' ≠ txn → Prepared s' txn' t' → Prepared s txn' t' :=
    fun hne hp => ⟨(hother hne).symm.trans hp.1, hp.2⟩
  have hown : ∀ {t'}, s'.mdbTxns.find txn = some t' → t' = t := fun hfind =>
    some.inj (hfind.symm.trans hself)
  constructor
  · intro txn' t' hp row hrow
    rcases eq_or_ne txn' txn with rfl | hne
    · obtain rfl := hown hp.1
      exact (hlocked hp.2).1 row hrow
    · exact (hframe row txn' hne).2.mpr (h.reads (hold hne hp) row hrow)
  · intro txn' t' hp row hrow
    rcases eq_or_ne txn' txn with rfl | hne
    · obtain rfl := hown hp.1
      exact (hlocked hp.2).2 row hrow
    · exact (hframe row txn' hne).1.mpr (h.writes (hold hne hp) row hrow)
  · intro txn1 t1 txn2 t2 hp1 hp2 hne
    rcases eq_or_ne txn1 txn with rfl | hne1
    · obtain rfl := hown hp1.1
      exact (hapart hp1.2 hne.symm (hold hne.symm hp2)).1
    · rcases eq_or_ne txn2 txn with rfl | hne2
      · obtain rfl := hown hp2.1
        exact (hapart hp2.2 hne1 (hold hne1 hp1)).2
      · exact h.apart (hold hne1 hp1) (hold hne2 hp2) hne
  · intro txn1 t1 hfind1 row hrow
    have hnew : New s txn1 row ∧ row ∉ t.touchedRows := by
      rcases eq_or_ne txn1 txn with rfl | hne
      · exact hinserted row (hown hfind1 ▸ hrow)
      · have hfind := (hother hne).symm.trans hfind1
        exact ⟨h.new hfind row hrow, htouched hne hfind row hrow⟩
    refine ⟨(htbl row).trans hnew.1.tbl, fun {txn2 t2} hfind2 => ?_, fun {txn2 t2} hfind2 hne => ?_⟩
    · rcases eq_or_ne txn2 txn with rfl | hne
      · exact hown hfind2 ▸ hnew.2
      · exact hnew.1.untouched ((hother hne).symm.trans hfind2)
    · rcases eq_or_ne txn2 txn with rfl | hne2
      · intro hrow'
        obtain rfl := hown hfind2
        exact (hinserted row hrow').1.only ((hother hne.symm).symm.trans hfind1) hne.symm hrow
      · exact hnew.1.only ((hother hne2).symm.trans hfind2) hne

theorem Inv.erase (h : Inv s) (htxns : s'.mdbTxns = s.mdbTxns.erase txn)
    (htbl : ∀ {txn' t'}, txn' ≠ txn → s.mdbTxns.find txn' = some t' → ∀ row ∈ t'.insertedRows,
      (s'.rows row).tbl = none)
    (hframe : ∀ row, RWLock.Frame txn (s.locks row) (s'.locks row)) : Inv s' := by
  have hold : ∀ {txn' t'}, s'.mdbTxns.find txn' = some t' →
      txn' ≠ txn ∧ s.mdbTxns.find txn' = some t' := by
    intro txn' t' hfind
    rw [htxns, find_erase] at hfind
    exact Option.ite_none_left_eq_some.mp hfind
  constructor
  · intro txn' t' hp row hrow
    obtain ⟨hne, hfind⟩ := hold hp.1
    exact (hframe row txn' hne).2.mpr (h.reads ⟨hfind, hp.2⟩ row hrow)
  · intro txn' t' hp row hrow
    obtain ⟨hne, hfind⟩ := hold hp.1
    exact (hframe row txn' hne).1.mpr (h.writes ⟨hfind, hp.2⟩ row hrow)
  · intro txn1 t1 txn2 t2 hp1 hp2 hne
    exact h.apart ⟨(hold hp1.1).2, hp1.2⟩ ⟨(hold hp2.1).2, hp2.2⟩ hne
  · intro txn' t' hfind row hrow
    obtain ⟨hne, hfind⟩ := hold hfind
    have hnew := h.new hfind row hrow
    exact ⟨htbl hne hfind row hrow, fun hfind' => hnew.untouched (hold hfind').2,
      fun hfind' => hnew.only (hold hfind').2⟩

theorem find_of_inserts {p : ℕ × ℕ} (h : p ∈ (s.getMdbTxn txn).inserts) :
    s.mdbTxns.find txn = some (s.getMdbTxn txn) := by
  unfold getMdbTxn at h ⊢
  cases hfind : s.mdbTxns.find txn with
  | none =>
    rw [hfind] at h
    cases h
  | some t => rfl

theorem Inv.own (h : Inv s) : ∀ row ∈ (s.getMdbTxn txn).insertedRows, New s txn row := by
  intro row hrow
  obtain ⟨p, hp, rfl⟩ := mem_map.mp hrow
  exact h.new (find_of_inserts hp) p.2 hrow

theorem New.own_untouched (h : New s txn' row) : row ∉ (s.getMdbTxn txn).touchedRows := by
  unfold getMdbTxn
  cases hfind : s.mdbTxns.find txn with
  | none => exact fun hrow => by cases hrow
  | some t => exact h.untouched hfind

section Access

variable {P : Prop} (h : Inv s) (ht : TxnOCC.Accesses row P (s.getMdbTxn txn) t)
  (hunverified : (s.getMdbTxn txn).verified = false) (htxns : s'.mdbTxns = s.mdbTxns.set txn t)
  (htbl : ∀ row, (s'.rows row).tbl = (s.rows row).tbl) (hlocks : s'.locks = s.locks)
  (hP : P → ∀ txn', row ∉ (s.getMdbTxn txn').insertedRows)

include h ht hunverified htxns htbl hlocks hP

theorem Inv.access
    (hinserted : ∀ row' ∈ t.insertedRows, New s txn row' ∧ (row' = row → ¬ P)) : Inv s' := by
  have hverified : t.verified ≠ true := by
    rw [ht.verified, hunverified]
    exact Bool.false_ne_true
  refine h.set htxns htbl (fun row => hlocks ▸ .refl txn _) (fun hv => absurd hv hverified)
    (fun hv => absurd hv hverified) (fun {txn' t'} _ hfind row' hrow htouched => ?_)
    fun row' hrow => ?_
  · have hrow' : row' ∈ (s.getMdbTxn txn').insertedRows := (getMdbTxn_eq hfind).symm ▸ hrow
    rcases ht.touched row' htouched with htouched | ⟨rfl, hp⟩
    · exact (h.own row' hrow').own_untouched htouched
    · exact hP hp txn' hrow'
  · obtain ⟨hnew, hself⟩ := hinserted row' hrow
    refine ⟨hnew, fun htouched => ?_⟩
    rcases ht.touched row' htouched with htouched | ⟨heq, hp⟩
    · exact hnew.own_untouched htouched
    · exact hself heq hp

theorem Inv.access_old
    (hinserts : ∀ p ∈ t.inserts, p ∈ (s.getMdbTxn txn).inserts) : Inv s' := by
  refine h.access ht hunverified htxns htbl hlocks hP fun row' hrow => ?_
  obtain ⟨p, hp, rfl⟩ := mem_map.mp hrow
  have hold : p.2 ∈ (s.getMdbTxn txn).insertedRows := mem_map_of_mem (hinserts p hp)
  exact ⟨h.own p.2 hold, fun heq hp => hP hp txn (heq ▸ hold)⟩

end Access

theorem prepare_spec {ok : Bool} (hstep : s.prepare txn = some (ok, s')) :
    ∃ held verified, s'.rows = s.rows ∧
      s'.mdbTxns = s.mdbTxns.set txn { s.getMdbTxn txn with locks := held, verified } ∧
      (∀ row, RWLock.Frame txn (s.locks row) (s'.locks row)) ∧ (verified = true →
        (∀ row ∈ (s.getMdbTxn txn).readRows, (s'.locks row).Holds txn) ∧
          ∀ row ∈ (s.getMdbTxn txn).updatedRows, (s'.locks row).Writes txn) := by
  obtain ⟨hverified, hstep⟩ := Option.ite_none_left_eq_some.mp hstep
  obtain ⟨valid, -, heq⟩ := map_eq_some_iff.mp hstep
  have hframe := lockCommit_frame txn s.locks (s.getMdbTxn txn)
  split at heq
  · dsimp only at heq
    split at heq
    · next hok =>
      obtain ⟨-, rfl⟩ := Prod.mk.inj heq
      exact ⟨_, true, rfl, rfl, hframe, fun _ => lockCommit_granted hok⟩
    · obtain ⟨-, rfl⟩ := Prod.mk.inj heq
      exact ⟨[], _, rfl, rfl, fun row => (hframe row).trans (unlockRows_frame txn _ _ row),
        fun hv => absurd hv hverified⟩
  · obtain ⟨-, rfl⟩ := Prod.mk.inj heq
    exact ⟨_, _, rfl, rfl, fun row => .refl txn _, fun hv => absurd hv hverified⟩

theorem inv_step (h : Inv s) (hproper : Proper s e) (hapart : Apart s e)
    (hstep : step s e = some s') : Inv s' := by
  have hinTable : ∀ row, (s.rows row).tbl ≠ none → ∀ txn', row ∉ (s.getMdbTxn txn').insertedRows :=
    fun row htbl txn' hrow => htbl (h.own row hrow).tbl
  cases e with
  | read txn row col =>
    obtain ⟨⟨value, t⟩, ht, rfl⟩ := map_eq_some_iff.mp hstep
    obtain ⟨haccess, hinserts⟩ := readColumn_accesses ht
    exact h.access_old haccess hproper rfl (fun row => rfl) rfl (hinTable row) fun p hp =>
      hinserts ▸ hp
  | write txn row col value =>
    obtain ⟨⟨r, t⟩, ht, rfl⟩ := map_eq_some_iff.mp hstep
    obtain ⟨haccess, hinserts, htbl⟩ := writeColumn_accesses ht
    exact h.access_old haccess hproper rfl (proj_update VersionedRow.tbl htbl) rfl (hinTable row)
      fun p hp => hinserts ▸ hp
  | insert txn tbl row =>
    obtain ⟨t, ht, rfl⟩ := map_eq_some_iff.mp hstep
    obtain ⟨haccess, hinserts, htbl⟩ := insertRow_accesses ht
    have hnew : New s txn row := ⟨htbl,
      fun hfind => (hproper.2 _ (find_eq_some.mp hfind)).1,
      fun hfind _ => (hproper.2 _ (find_eq_some.mp hfind)).2⟩
    refine h.access haccess hproper.1 rfl (fun row => rfl) rfl (fun hp => hp.elim)
      fun row' hrow => ⟨?_, fun _ hp => hp⟩
    rw [insertedRows, hinserts, map_append] at hrow
    exact forall_mem_concat h.own hnew row' hrow
  | remove txn tbl row =>
    obtain ⟨t, ht, rfl⟩ := map_eq_some_iff.mp hstep
    obtain ⟨haccess, hinserts⟩ := removeRow_accesses ht
    refine h.access_old haccess hproper.1 rfl (fun row => rfl) rfl (fun hnot txn' hrow => ?_)
      hinserts
    obtain ⟨p, hp, rfl⟩ := mem_map.mp hrow
    obtain ⟨rfl, rfl⟩ := hproper.2 _ (find_eq_some.mp (find_of_inserts hp)) p hp rfl
    exact hnot hp
  | prepare txn =>
    obtain ⟨⟨ok, s''⟩, hs'', rfl⟩ := map_eq_some_iff.mp hstep
    obtain ⟨held, verified, hrows, htxns, hframe, hlocked⟩ := prepare_spec hs''
    refine h.set htxns (fun row => congrArg VersionedRow.tbl (congrFun hrows row)) hframe hlocked
      (fun _ {txn' t'} hne hp => ?_) (fun {txn' t'} _ hfind row hrow => ?_) fun row hrow => ?_
    · exact hapart _ (find_eq_some.mp hp.1) hne hp.2
    · exact (h.new hfind row hrow).own_untouched
    · have hnew : New s txn row := h.own row hrow
      exact ⟨hnew, hnew.own_untouched⟩
  | commit txn =>
    obtain ⟨t, rows, hprepared, hrows, hrows', htxns, hframe⟩ := commit_spec hstep
    refine h.erase htxns (fun {txn' t'} hne hfind row hrow => ?_) hframe
    have hnew := h.new hfind row hrow
    rw [hrows']
    exact apply_tbl hrows (hnew.only hprepared.1 hne.symm) hnew.tbl
  | abort txn =>
    obtain ⟨t, -, rfl⟩ := map_eq_some_iff.mp hstep
    exact h.erase rfl (fun _ hfind row hrow => (h.new hfind row hrow).tbl)
      (unlockRows_frame txn t.locks s.locks)
  | commitTxn txn =>
    obtain ⟨-, -, rfl⟩ := map_eq_some_iff.mp hstep
    exact h

instance (s : OCCSched D) : (e : Event D) → Decidable (Proper s e)
  | .read .. | .write .. => inferInstanceAs (Decidable (_ = false))
  | .insert .. | .remove .. => inferInstanceAs (Decidable (_ ∧ ∀ e ∈ s.mdbTxns.entries, _))
  | .prepare _ | .commit _ | .abort _ | .commitTxn _ => isTrue trivial

instance (s : OCCSched D) : (e : Event D) → Decidable (Apart s e)
  | .prepare _ => inferInstanceAs (Decidable (∀ e ∈ s.mdbTxns.entries, _))
  | .read .. | .write .. | .insert .. | .remove .. | .commit _ | .abort _ | .commitTxn _ =>
    isTrue trivial

instance (s : OCCSched D) : (e : Event D) → Decidable (Protected s e)
  | .commit _ => inferInstanceAs (Decidable (∀ e ∈ s.mdbTxns.entries, _))
  | .read .. | .write .. | .insert .. | .remove .. | .prepare _ | .abort _ | .commitTxn _ =>
    isTrue trivial

/-- In every run in which prepared transactions do not meet in rows that are removed, whatever the
    rows at first and whatever is read and written. -/
theorem prepared_protected (rows : ℕ → VersionedRow D) (es : List (Event D))
    (h : Along step (fun s e => Proper s e ∧ Apart s e) { rows } es) :
    Along step Protected { rows } es := by
  have hinit : Inv ({ rows } : OCCSched D) := by
    refine ⟨fun hp => ?_, fun hp => ?_, fun hp => ?_, fun hfind => ?_⟩
    · cases hp.1
    · cases hp.1
    · cases hp.1
    · cases hfind
  exact along_of_inv (fun _ _ _ hinv hC hstep => inv_step hinv hC.1 hC.2 hstep)
    (fun _ _ _ hinv _ hstep => hinv.protected hstep) hinit h

/-- Rows 0, 1 and 2 are in a table. -/
def threeRows (row : ℕ) : VersionedRow ℕ where
  tbl := if row < 3 then some 0 else none
  columns := 1
  data _ := 0

/-- Transactions 1 and 2 both read row 0 and each writes another row; 2 inserts row 3 and commits
    while 1 is prepared. Then 3 removes what 2 has written. -/
def sideBySide : List (Event ℕ) :=
  [.read 1 0 0, .write 1 1 0 7, .read 2 0 0, .write 2 2 0 8, .write 2 3 0 9, .insert 2 0 3,
    .prepare 1, .prepare 2, .commit 2, .commit 1, .remove 3 0 2, .prepare 3, .commit 3]

theorem prepared_protected_sideBySide : (run step { rows := threeRows } sideBySide).map
        (fun s => ((s.rows 1).data 0, (s.rows 2).tbl, (s.rows 3).tbl)) = some (7, none, some 0) ∧
      Along step Protected { rows := threeRows } sideBySide :=
  ⟨by decide +kernel, prepared_protected threeRows sideBySide (by decide +kernel)⟩

/-- Transaction 1 has read row 0 and is prepared when 2 removes the row and commits. -/
def removal : List (Event ℕ) := [.read 1 0 0, .prepare 1, .remove 2 0 0, .prepare 2, .commit 2]

theorem removed_while_prepared : Along step Proper { rows := threeRows } removal ∧
    ¬ Along step Protected { rows := threeRows } removal := by
  decide +kernel

end OCCSched

end Fiss.Occ
