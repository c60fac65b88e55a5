import Fiss.Tapir.Exclusion

/-! What `FastAccept` notices of the columns that the dispatches of its transaction have returned.
    The versions it compares are always 0, since a `Value` is copied without its version. What is
    left is `read_vers_`: a column that was read once and not read again has the version of that
    read there, so that it is found to be passed; one that is read again has the version of now. -/

namespace Fiss.Tapir

open Memdb Option List Prod OrdMap

variable {D : Type} {rows : Rows D}

/-! ### The versions of the outputs -/

/-- No value has a version. -/
def Unversioned {K : Type} (l : List (K × Value D)) : Prop := ∀ e ∈ l, e.2.ver = 0

theorem Unversioned.assignAt {K : Type} [LinearOrder K] {m : OrdMap K (Value D)}
    (h : Unversioned m.entries) (k : K) (src : Value D) :
    Unversioned (Value.assignAt m k src).entries := by
  intro e he
  rcases mem_place he with rfl | he
  · cases hv : m.find k with
    | none => rfl
    | some v => exact h (k, v) (find_eq_some.mp hv)
  · exact h e he

theorem Unversioned.run (h : Handler D) {p : Pass D} (hp : Unversioned p.output.entries) :
    Unversioned (h.run rows p).output.entries := by
  induction h generalizing p with
  | done => exact hp
  | read c out next ih =>
    refine ih _ ?_
    cases out with
    | none => exact hp
    | some var => exact hp.assignAt var _
  | output var value next ih => exact ih (hp.assignAt var _)
  | write c value next ih => exact ih hp

theorem unversioned_execute (cmds : List (SimpleCommand D)) (x : TapirExecutor D) :
    ∀ o ∈ (execute rows cmds x).output.entries, Unversioned o.2.entries := by
  refine foldlRecOn (motive := fun e : Execution D => ∀ o ∈ e.output.entries,
    Unversioned o.2.entries) cmds _ (fun o ho => by cases ho) fun e he cmd _ o ho => ?_
  rcases mem_place ho with rfl | ho
  · refine Unversioned.run _ ?_
    change Unversioned ((e.output.find cmd.innId).getD .empty).entries
    cases hfind : e.output.find cmd.innId with
    | none => exact fun v hv => by cases hv
    | some m => exact he (cmd.innId, m) (find_eq_some.mp hfind)
  · exact he o ho

theorem unversioned_outputM (cmds : List (SimpleCommand D)) :
    (outputM cmds).All fun _ value => value.ver = 0 := by
  refine foldlRecOn cmds _ Dict.all_empty fun m hm cmd _ => ?_
  exact foldlRecOn cmd.output.entries _ hm fun m hm o _ => Dict.all_insert hm rfl

theorem validates_iff (cmds : List (SimpleCommand D)) (x : TapirExecutor D) :
    validates cmds (execute rows cmds x) = true ↔
      ∀ o ∈ (execute rows cmds x).output.entries, ∀ v ∈ o.2.entries,
        ((outputM cmds).find v.1).isSome := by
  unfold validates
  simp only [List.all_eq_true]
  refine forall₂_congr fun o ho => forall₂_congr fun v hv => ?_
  cases hfind : (outputM cmds).find v.1 with
  | none => simp
  | some value =>
    have hver : value.ver = 0 := unversioned_outputM cmds _ (Dict.mem_entries_of_find hfind)
    simp [unversioned_execute cmds x o ho v hv, hver]

/-! ### The versions that were read -/

/-- What was read has the version of now in `read_vers_`, the rest the one it had there. -/
def Recorded (rows : Rows D) (t txn : TapirDTxn D) (reads : List (Column × Bool)) : Prop :=
  ∀ c, txn.readVers.find c =
    if c ∈ reads.map fst then some (rows.ver c) else t.readVers.find c

theorem Recorded.run {t : TapirDTxn D} (h : Handler D) {p : Pass D}
    (hp : Recorded rows t p.txn p.reads) :
    Recorded rows t (h.run rows p).txn (h.run rows p).reads := by
  induction h generalizing p with
  | done => exact hp
  | read c out next ih =>
    refine ih _ fun c' => ?_
    change (p.txn.readVers.set c (rows.ver c)).find c' = _
    rw [find_set, hp c']
    rcases eq_or_ne c' c with rfl | hne
    · simp
    · simp [hne]
  | output var value next ih | write c value next ih => exact ih hp

theorem recorded_execute (cmds : List (SimpleCommand D)) (x : TapirExecutor D) :
    Recorded rows x.toTapirDTxn (execute rows cmds x).txn (execute rows cmds x).reads :=
  foldlRecOn (motive := fun e : Execution D => Recorded rows x.toTapirDTxn e.txn e.reads) cmds
    _ (fun _ => (if_neg not_mem_nil).symm) fun _ he _ _ => Recorded.run _ he

theorem Rows.le_ver_update (rows : Rows D) (ws : List (Column × Value D)) (c : Column) :
    rows.ver c ≤ (ws.foldl Rows.update rows).ver c := by
  refine foldlRecOn (motive := fun rows' : Rows D => rows.ver c ≤ rows'.ver c) ws _ le_rfl
    fun rows' h w _ => h.trans ?_
  change rows'.ver c ≤ Function.update rows'.ver w.1 (rows'.ver w.1 + 1) c
  rcases eq_or_ne c w.1 with rfl | hne
  · rw [Function.update_self]
    exact Nat.le_succ _
  · rw [Function.update_of_ne hne]

namespace TapirSched

variable {s s' : TapirSched D} {e : Event D} {txn : ℕ} {cmds : List (SimpleCommand D)}

/-- An accepted transaction has returned no column that was changed since. -/
def Fresh (s : TapirSched D) : Event D → Prop
  | .fastAccept txn cmds => (s.onFastAccept txn cmds).map fst = some .success →
      ∀ r ∈ s.returned, r.txn = txn → s.rows.ver r.col = r.ver
  | _ => True

/-- What a transaction has returned is unchanged when the transaction reads it again. -/
def Unmoved (s : TapirSched D) : Event D → Prop
  | .dispatch txn cmds | .fastAccept txn cmds => ∀ r ∈ s.returned, r.txn = txn →
      r.col ∈ (s.execution txn cmds).reads.map fst → s.rows.ver r.col = r.ver
  | .decide _ _ => True

/-- Before its fast accept, what a transaction has returned has its version in `read_vers_`. -/
def Kept (s : TapirSched D) : Prop :=
  ∀ r ∈ s.returned, (∀ v ∈ s.votes, v.1 ≠ r.txn) →
    (s.getOrCreateExecutor r.txn).readVers.find r.col = some r.ver ∧ r.ver ≤ s.rows.ver r.col

theorem find_readVers (hunmoved : ∀ r ∈ s.returned, r.txn = txn →
      r.col ∈ (s.execution txn cmds).reads.map fst → s.rows.ver r.col = r.ver)
    {r : Returned} (hr : r ∈ s.returned) (htxn : r.txn = txn)
    (hfind : (s.getOrCreateExecutor txn).readVers.find r.col = some r.ver) :
    (s.execution txn cmds).txn.readVers.find r.col = some r.ver := by
  rw [execution, recorded_execute]
  split
  · next hread => exact congrArg some (hunmoved r hr htxn hread)
  · exact hfind

theorem Kept.change (h : Kept s) {x' : Option (TapirExecutor D)}
    (hexecs : s'.execs = Function.update s.execs txn x')
    (hvotes : ∀ v ∈ s.votes, v ∈ s'.votes) (hver : ∀ c, s.rows.ver c ≤ s'.rows.ver c)
    (hreturned : ∀ r ∈ s'.returned, r.txn ≠ txn → r ∈ s.returned)
    (hself : ∀ r ∈ s'.returned, r.txn = txn → (∀ v ∈ s'.votes, v.1 ≠ txn) →
      (x'.getD {}).readVers.find r.col = some r.ver ∧ r.ver ≤ s'.rows.ver r.col) : Kept s' := by
  intro r hr hnew
  rcases eq_or_ne r.txn txn with heq | hne
  · rw [getOrCreateExecutor, hexecs, heq, Function.update_self]
    exact hself r hr heq (heq ▸ hnew)
  · obtain ⟨hfind, hle⟩ := h r (hreturned r hr hne) fun v hv => hnew v (hvotes v hv)
    rw [getOrCreateExecutor, hexecs, Function.update_of_ne hne]
    exact ⟨hfind, hle.trans (hver r.col)⟩

theorem kept_step (h : Kept s) (hproper : Proper s e) (hunmoved : Unmoved s e)
    (hstep : step s e = some s') : Kept s' := by
  cases e with
  | dispatch txn cmds =>
    obtain rfl := onDispatch_eq hstep
    have hnew : ∀ r ∈ ((s.execution txn cmds).reads.filter (·.2)).map
        fun r => (⟨txn, r.1, s.rows.ver r.1⟩ : Returned), r.txn = txn ∧
          (s.execution txn cmds).txn.readVers.find r.col = some r.ver ∧
            r.ver = s.rows.ver r.col := by
      intro r hr
      obtain ⟨c, hc, rfl⟩ := mem_map.mp hr
      refine ⟨rfl, ?_, rfl⟩
      rw [execution, recorded_execute]
      exact if_pos (mem_map_of_mem (mem_of_mem_filter hc))
    refine h.change rfl (fun v hv => hv) (fun c => le_rfl) (fun r hr hne => ?_)
      fun r hr htxn hvotes => ?_
    · exact (mem_append.mp hr).resolve_right fun hr => hne (hnew r hr).1
    · rcases mem_append.mp hr with hr | hr
      · obtain ⟨hfind, hle⟩ := h r hr (htxn ▸ hvotes)
        exact ⟨find_readVers hunmoved hr htxn (htxn ▸ hfind), hle⟩
      · exact ⟨(hnew r hr).2.1, (hnew r hr).2.2.le⟩
  | fastAccept txn cmds =>
    obtain ⟨⟨res, s''⟩, hs'', rfl⟩ := map_eq_some_iff.mp hstep
    obtain ⟨v, -, -, rfl⟩ := onFastAccept_eq hs''
    refine h.change rfl (fun v hv => mem_append_left _ hv) (fun c => le_rfl)
      (fun r hr _ => hr) fun r _ _ hvotes => ?_
    exact absurd rfl (hvotes (txn, v.res) (mem_append_right _ (mem_singleton_self _)))
  | decide txn commit =>
    obtain ⟨x, -, hstep⟩ := bind_eq_some_iff.mp hstep
    obtain ⟨locks, -, rfl⟩ := map_eq_some_iff.mp hstep
    refine h.change rfl (fun v hv => hv) (fun c => ?_) (fun r hr _ => hr) fun r _ _ hvotes => ?_
    · change s.rows.ver c ≤ (if commit then _ else s.rows).ver c
      split
      · exact Rows.le_ver_update s.rows _ c
      · exact le_rfl
    · obtain ⟨v, hv, htxn⟩ := hproper.2.1
      exact absurd htxn (hvotes v hv)

theorem le_of_validate {x : Execution D} {v : Locking} (hv : s.validate txn cmds x = some v)
    (hres : v.res = .success) : ∀ e ∈ x.txn.readVers.entries, s.rows.ver e.1 ≤ e.2 := by
  unfold validate at hv
  dsimp only at hv
  split at hv
  · obtain ⟨v', hv', -⟩ := map_eq_some_iff.mp hv
    exact (Locking.lockReads_spec hv').2
  · obtain rfl := some.inj hv
    cases hres

theorem Kept.fresh (h : Kept s) (hproper : Proper s e) (hunmoved : Unmoved s e) : Fresh s e := by
  cases e with
  | dispatch txn cmds | decide txn commit => trivial
  | fastAccept txn cmds =>
    intro hres r hr htxn
    obtain ⟨hfind, hle⟩ := h r hr (htxn ▸ hproper)
    obtain ⟨⟨res, s'⟩, hs', rfl⟩ := map_eq_some_iff.mp hres
    obtain ⟨v, hv, hres, -⟩ := onFastAccept_eq hs'
    refine le_antisymm ?_ hle
    exact le_of_validate hv hres _
      (find_eq_some.mp (find_readVers hunmoved hr htxn (htxn ▸ hfind)))

instance (s : TapirSched D) : (e : Event D) → Decidable (Fresh s e)
  | .dispatch _ _ => isTrue trivial
  | .fastAccept _ _ => inferInstanceAs (Decidable (_ → ∀ r ∈ s.returned, _ → _))
  | .decide _ _ => isTrue trivial

instance (s : TapirSched D) : (e : Event D) → Decidable (Unmoved s e)
  | .dispatch _ _ => inferInstanceAs (Decidable (∀ r ∈ s.returned, _ → _ → _))
  | .fastAccept _ _ => inferInstanceAs (Decidable (∀ r ∈ s.returned, _ → _ → _))
  | .decide _ _ => isTrue trivial

/-- In every run in which a transaction never reads again what was changed after it returned it. -/
theorem accepted_fresh (rows : Rows D) (es : List (Event D))
    (h : Along step (fun s e => Proper s e ∧ Unmoved s e) { rows } es) :
    Along step Fresh { rows } es := by
  have hinit : Kept ({ rows } : TapirSched D) := fun r hr => by cases hr
  exact along_of_inv (fun _ _ _ hkept hC hstep => kept_step hkept hC.1 hC.2 hstep)
    (fun _ _ _ hkept hC _ => hkept.fresh hC.1 hC.2) hinit h

/-- A column is returned in variable 7. -/
def returnColumn : SimpleCommand ℕ where
  innId := 0
  output := empty.set 7 ⟨5, 0⟩
  handler _ := .read (toLex (1, 0)) (some 7) fun _ => .done

def overwriteColumn : SimpleCommand ℕ where
  innId := 0
  handler _ := .write (toLex (1, 0)) 6 .done

/-- Transaction 1 returns a column and commits, then transaction 2 overwrites it. -/
def inTurn : List (Event ℕ) :=
  [.dispatch 1 [returnColumn], .dispatch 2 [overwriteColumn], .fastAccept 1 [returnColumn],
    .decide 1 true, .fastAccept 2 [overwriteColumn], .decide 2 true]

theorem accepted_fresh_inTurn :
    (run step { rows := ⟨fun _ => 5, fun _ => 0⟩ } inTurn).map (fun s => s.votes) =
        some [(1, .success), (2, .success)] ∧
      Along step Fresh { rows := ⟨fun _ => 5, fun _ => 0⟩ } inTurn :=
  ⟨by decide +kernel, accepted_fresh ⟨fun _ => 5, fun _ => 0⟩ inTurn (by decide +kernel)⟩

/-- Transaction 2 commits before the fast accept of transaction 1, which is answered with
    success. -/
def overtaken : List (Event ℕ) :=
  [.dispatch 1 [returnColumn], .fastAccept 2 [overwriteColumn], .decide 2 true,
    .fastAccept 1 [returnColumn]]

theorem stale_accepted : Along step Proper { rows := ⟨fun _ => 5, fun _ => 0⟩ } overtaken ∧
    ¬ Along step Fresh { rows := ⟨fun _ => 5, fun _ => 0⟩ } overtaken := by
  decide +kernel

end TapirSched

end Fiss.Tapir
