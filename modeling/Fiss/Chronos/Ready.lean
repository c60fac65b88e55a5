import Fiss.Chronos.Steps

/-! Which transactions `CheckExecutableTxns` may run. The loop means to run a transaction only when
    every other site of the region has told a later timestamp, to remove it only when it has finished,
    and to wait at one that it knows by name only.

    The guard of the loop reads `commit_ts_`, which no handler sets (`Sound`): it asks only whether
    every site has been heard of. A site that is not the region handler removes a transaction after
    one attempt, with whatever pieces it has by then. -/

namespace Fiss.Chronos
open Fiss.Rcc List Option OrdMap

variable {site : Site} {s s' : Sched}

/-- `CheckExecutableTxns` is called in states with `C` only. -/
def AtCheck (C : Sched → Prop) (s : Sched) : Event → Prop
  | .check => C s
  | _ => True

instance {C : Sched → Prop} [DecidablePred C] (s : Sched) : (e : Event) → Decidable (AtCheck C s e)
  | .check => inferInstanceAs (Decidable (C s))
  | .handleIRT .. | .prepareIRT .. | .piggy .. | .irtAck .. | .submitCRT .. | .remotePrepared ..
  | .prepareCRT .. | .distExe .. | .sendOutput .. | .distExeAck .. | .notiCRT .. | .notiCommit ..
  | .tick .. => isTrue trivial

/-! ### The watermark -/

/-- When a callback ran, every other site of the region had told a later timestamp than the one of the
    transaction. -/
def Watermark (site : Site) (s : Sched) : Prop :=
  ∀ r ∈ s.ran, ∀ d ∈ r.dtxns.find r.txn, ∀ x ∈ site.others, ∃ ts ∈ r.maxTs.find x, d.ts < ts

instance : DecidablePred (Watermark site) := fun s =>
  inferInstanceAs (Decidable (∀ r ∈ s.ran, _))

/-- Some site has not been heard of, or all have told later timestamps than those of the transactions
    that are ready and executable. -/
def ToldLater (s : Sched) : Prop :=
  (∃ m ∈ s.irSiteMaxTs.entries, ¬ ({} : ChrTs) < m.2) ∨
    ∀ e ∈ s.readyTxns.entries, ∀ d ∈ s.dtxns.find e.2, phaseCanExe ≤ d.chrPhase.rank →
      ∀ m ∈ s.irSiteMaxTs.entries, d.ts < m.2

instance : DecidablePred ToldLater := fun _ => inferInstanceAs (Decidable (_ ∨ _))

/-- What a site is told by name: it has an entry for every other site of the region. -/
def KnowsRegion (site : Site) (s : Sched) : Prop := ∀ x ∈ site.others, (s.irSiteMaxTs.find x).isSome

theorem newSched_knows (site : Site) (offset : ℤ) : KnowsRegion site (newSched site offset) := by
  intro x hx
  rw [newSched, find_foldl_set, if_pos hx]
  rfl

theorem step_knows {e : Event} (h : KnowsRegion site s) (hs : step site s e = some s') :
    KnowsRegion site s' := by
  rcases Classical.em (e = .check) with rfl | he
  · exact fun x hx => (check_since hs).maxTs ▸ h x hx
  · exact fun x hx => (step_quiet he hs).told x (h x hx)

/-- After any requests no record has a commit timestamp, each counts its executed pieces, and every
    other site of the region has an entry. -/
theorem handlers_sound (site : Site) (offset : ℤ) (rs : List Request) :
    Throughout (handle site) (fun s => AllSound s ∧ KnowsRegion site s) (newSched site offset) rs := by
  refine throughout_of_inv (fun s r s' hs _ h => ?_) ?_ (along_true _ _)
  · obtain ⟨es, hes⟩ := handle_run h
    exact run_inv (P := fun s => AllSound s ∧ KnowsRegion site s)
      (fun _ _ _ hs h => ⟨step_sound hs.1 h, step_knows hs.2 h⟩) hs hes
  · exact ⟨fun _ _ h => (by cases h), newSched_knows site offset⟩

theorem visit_watermark {done : List (ChrTs × ℕ)} {k : ChrTs} {id : ℕ} {d : TxChronos}
    {l l' : Sched.Loop} (hsound : AllSound s) (hknows : KnowsRegion site s)
    (hC : ToldLater s) (hv : Sched.Visit site s done k id d l l')
    (hl : Watermark site l.sched) : Watermark site l'.sched := by
  cases hv.visited with
  | skip sched pending => exact sched ▸ hl
  | call d' removed called ready =>
    intro r hr
    rw [called.ran] at hr
    rcases mem_append.mp hr with hr | hr
    · exact hl r hr
    · -- the transaction at hand: the guard has passed, so every site has been heard of
      rw [mem_singleton.mp hr]
      intro d1 hd1 x hx
      obtain rfl : d = d1 := some.inj (hv.find.symm.trans hd1)
      obtain ⟨d0, hd0, hpassed, hstop⟩ := hv.first
      obtain ⟨hguard, hexe⟩ := Sched.stops_eq_false.mp hstop
      rw [(hsound id d0 hd0).commitTs] at hguard
      rcases hC with ⟨m, hm, hnot⟩ | hlater
      · exact absurd (hguard m hm) hnot
      · obtain ⟨ts, hts⟩ := isSome_iff_exists.mp (hknows x hx)
        refine ⟨ts, hv.since.maxTs ▸ hts, ?_⟩
        rw [hpassed.ts]
        exact hlater (k, id) hv.mem d0 hd0 hexe (x, ts) (find_eq_some.mp hts)

/-- In every run in which `CheckExecutableTxns` is called as `ToldLater` says, the callbacks that have
    run were below the watermark. -/
theorem watermark_of_toldLater {offset : ℤ} {es : List Event}
    (h : Along (step site) (AtCheck ToldLater) (newSched site offset) es) :
    Throughout (step site) (Watermark site) (newSched site offset) es := by
  have hall : Throughout (step site) (fun s => (AllSound s ∧ KnowsRegion site s) ∧ Watermark site s)
      (newSched site offset) es := by
    refine throughout_of_inv (fun s e s' hs hC h => ?_) ?_ h
    · refine ⟨⟨step_sound hs.1.1 h, step_knows hs.1.2 h⟩, ?_⟩
      rcases Classical.em (e = .check) with rfl | he
      · obtain ⟨-, l, hl, -, rfl⟩ := Sched.check_inv (J := fun _ l => Watermark site l.sched) hs.2
          (fun _ _ _ _ _ _ hv hl => visit_watermark hs.1.1 hs.1.2 hC hv hl) h
        exact hl
      · intro r hr
        rw [(step_quiet he h).ran] at hr
        exact hs.2 r hr
    · exact ⟨⟨fun _ _ h => (by cases h), newSched_knows site offset⟩,
        forall_mem_nil _⟩
  exact throughout_mono (fun _ hs => hs.2) hall

/-- The middle one of the three replicas of a partition that is a region by itself; its pieces return
    nothing. -/
def threeSite : Site where
  siteId := 1
  parId := 0
  nReplicas := 3
  nShardPerRegion := 1
  myRid := 0
  others := [0, 2]
  sitesOf par := [3 * par, 3 * par + 1, 3 * par + 2]
  handler _ _ _ := .done {}

/-- A piece that waits for nothing. -/
def plainPiece : SimpleCommand := { innId := 1, type := 1 }

/-- Such a piece for one partition. -/
def pieceFor (par : ℕ) : Cmds := set {} par [plainPiece]

/-- Site 0 sends a transaction of timestamp 10; both other sites then tell later ones. -/
def laterRun : List Event :=
  [.prepareIRT 7 [plainPiece] ⟨10, 10, 0⟩, .piggy 0 ⟨10, 10, 0⟩ [] 10, .check, .tick 11,
    .piggy 0 ⟨20, 20, 0⟩ [] 20, .check, .piggy 2 ⟨30, 30, 2⟩ [] 30, .check]

theorem watermark_of_toldLater_run :
    (run (step threeSite) (newSched threeSite 0) laterRun).map (fun s => s.ran.length) = some 1 ∧
    Throughout (step threeSite) (Watermark threeSite) (newSched threeSite 0) laterRun :=
  ⟨by decide, watermark_of_toldLater (by decide)⟩

/-- Site 0 sends a transaction of timestamp 10; when site 2 has told 5, it is executed. -/
theorem below_watermark_run : ∃ s', run (handle threeSite) (newSched threeSite 0)
    [.prepareIRT 7 [plainPiece] ⟨10, 10, 0⟩ [] 10 11, .irSync 2 ⟨5, 5, 2⟩ [] 12] = some s' ∧
      ¬ Watermark threeSite s' := by
  have h : (run (handle threeSite) (newSched threeSite 0)
      [.prepareIRT 7 [plainPiece] ⟨10, 10, 0⟩ [] 10 11, .irSync 2 ⟨5, 5, 2⟩ [] 12]).map
        (fun s => decide (Watermark threeSite s)) = some false := by decide
  obtain ⟨s', hs', hw⟩ := map_eq_some_iff.mp h
  exact ⟨s', hs', of_decide_eq_false hw⟩

/-! ### Whole transactions -/

/-- All local pieces of the record are executed. -/
def TxChronos.Done (d : TxChronos) : Prop :=
  d.nLocalPieces = some d.nExecutedPieces ∧ ∀ c ∈ d.pieces, c.localExecuted = true

instance : DecidablePred TxChronos.Done := fun _ => inferInstanceAs (Decidable (_ ∧ _))

/-- A transaction that `CheckExecutableTxns` removed had all its local pieces executed. -/
def Whole (s : Sched) : Prop := ∀ r ∈ s.ran, r.removed = true → ∃ d ∈ r.after, d.Done

instance : DecidablePred Whole := fun s => inferInstanceAs (Decidable (∀ r ∈ s.ran, _))

/-- A transaction that another site leads has its pieces here with their inputs, and no piece still
    to be executed of an earlier ready transaction conflicts with one of them. -/
def Ripe (site : Site) (s : Sched) : Prop :=
  ∀ e ∈ s.readyTxns.entries, ∀ d ∈ s.dtxns.find e.2, phaseCanExe ≤ d.chrPhase.rank →
    d.regionHandler ≠ site.siteId → d.callback ≠ .unset ∧
      ∀ c ∈ d.pieces, c.input.pieceInputReady = true ∧
        ∀ e' ∈ s.readyTxns.entries, e'.1 < e.1 → ∀ d' ∈ s.dtxns.find e'.2, ∀ c' ∈ d'.pieces,
          c'.localExecuted = false → site.checkPieceConflict c'.innId c.innId = false

instance : DecidablePred (Ripe site) := fun s =>
  inferInstanceAs (Decidable (∀ e ∈ s.readyTxns.entries, _))

/-- The pending pieces are pieces of the transactions the loop has come past. -/
def PendingOf (s : Sched) (done : List (ChrTs × ℕ)) (pending : OrdSet ℕ) : Prop :=
  ∀ p ∈ pending, ∃ e ∈ done, ∃ d ∈ s.dtxns.find e.2, ∃ c ∈ d.pieces,
    c.localExecuted = false ∧ c.innId = p

section Whole

variable {done : List (ChrTs × ℕ)} {k : ChrTs} {id : ℕ} {d d' : TxChronos} {l l' : Sched.Loop}

theorem PendingOf.mono {pending : OrdSet ℕ} (h : PendingOf s done pending) (e : ChrTs × ℕ) :
    PendingOf s (done ++ [e]) pending := fun p hp => by
  obtain ⟨e', he', hrest⟩ := h p hp
  exact ⟨e', mem_append_left _ he', hrest⟩

theorem unexecuted_of_passed {d0 : TxChronos} (h : Kept d0 d) {c : SimpleCommand} (hc : c ∈ d.pieces)
    (hno : c.localExecuted = false) :
    ∃ c0 ∈ d0.pieces, c0.localExecuted = false ∧ c0.innId = c.innId := by
  obtain ⟨c0, hc0, hk⟩ := exists_of_kept h.pieces hc
  refine ⟨c0, hc0, eq_false_of_ne_true fun hex => ?_, hk.innId.symm⟩
  cases hno.symm.trans (hk.executed hex)

theorem visit_pending (hv : Sched.Visit site s done k id d l l') (hl : PendingOf s done l.pending) :
    PendingOf s (done ++ [(k, id)]) l'.pending := by
  cases hv.visited with
  | skip sched pending => exact pending ▸ hl.mono (k, id)
  | call d' removed called ready =>
    obtain ⟨fin, t, hex, -, -⟩ := called.executed
    intro p hp
    rcases hex.pending p hp with hp | ⟨c, hc, hno, rfl⟩
    · exact hl.mono (k, id) p hp
    · obtain ⟨d0, hd0, hpassed, -⟩ := hv.first
      obtain ⟨c0, hc0, hno0, hinn⟩ := unexecuted_of_passed hpassed.toKept hc hno
      exact ⟨(k, id), mem_append_right _ mem_cons_self, d0, hd0, c0, hc0, hno0, hinn⟩

theorem visit_unhindered (hC : Ripe site s) (hv : Sched.Visit site s done k id d l l')
    (hl : PendingOf s done l.pending) (hlead : d.regionHandler ≠ site.siteId) :
    d.callback ≠ .unset ∧ site.Unhindered l.pending d := by
  obtain ⟨d0, hd0, hpassed, hstop⟩ := hv.first
  obtain ⟨hset, hpieces⟩ := hC (k, id) hv.mem d0 hd0 (Sched.stops_eq_false.mp hstop).2
    (hpassed.regionHandler ▸ hlead)
  refine ⟨hpassed.callback ▸ hset, fun c hc => ?_⟩
  obtain ⟨c0, hc0, hk⟩ := exists_of_kept hpassed.pieces hc
  obtain ⟨hready, hconf⟩ := hpieces c0 hc0
  refine ⟨hk.ready hready, all_eq_true.mpr fun p hp => ?_⟩
  obtain ⟨e, he, d', hd', c', hc', hno, rfl⟩ := hl p hp
  obtain ⟨hmem, hlt⟩ := hv.before he
  rw [hk.innId, hconf e hmem hlt d' hd' c' hc' hno]
  rfl

theorem Sound.done_of_all (h : Sound d) (hset : d.callback ≠ .unset)
    (hall : ∀ c ∈ d.pieces, c.localExecuted = true) : d.Done := by
  refine ⟨?_, hall⟩
  rw [h.nLocal hset, h.counted, countP_eq_length.mpr hall]

theorem Sound.done_of_count (h : Sound d) (hset : d.callback ≠ .unset)
    (hcount : d.nLocalPieces = some d.nExecutedPieces) : d.Done := by
  refine ⟨hcount, countP_eq_length.mp ?_⟩
  rw [h.nLocal hset, h.counted] at hcount
  exact (some.inj hcount).symm

theorem visit_whole (hsound : AllSound s) (hC : Ripe site s)
    (hv : Sched.Visit site s done k id d l l') (hpending : PendingOf s done l.pending)
    (hl : Whole l.sched) : Whole l'.sched := by
  cases hv.visited with
  | skip sched pending => exact sched ▸ hl
  | call d' removed called ready =>
    obtain ⟨fin, t, hex, hremoved, -⟩ := called.executed
    intro r hr
    rw [called.ran] at hr
    rcases mem_append.mp hr with hr | hr
    · exact hl r hr
    · rw [mem_singleton.mp hr]
      intro hrem
      refine ⟨d', rfl, ?_⟩
      have hsound' : Sound d' := ((hsound.since hv.since) id d hv.find).kept hex.kept
      rw [hremoved, Bool.or_eq_true, decide_eq_true_eq] at hrem
      rcases hrem with hfin | hlead
      · obtain ⟨hset, hcount⟩ := hex.finished hfin
        exact hsound'.done_of_count (hex.kept.callback ▸ hset) hcount
      · obtain ⟨hset, hfree⟩ := visit_unhindered hC hv hpending hlead
        exact hsound'.done_of_all (hex.kept.callback ▸ hset) (hex.all hset hfree)

end Whole

/-- In every run in which `CheckExecutableTxns` is called with ripe transactions only, it removes whole
    transactions only. -/
theorem whole_of_ripe {offset : ℤ} {es : List Event}
    (h : Along (step site) (AtCheck (Ripe site)) (newSched site offset) es) :
    Throughout (step site) Whole (newSched site offset) es := by
  have hall : Throughout (step site) (fun s => AllSound s ∧ Whole s) (newSched site offset) es := by
    refine throughout_of_inv (fun s e s' hs hC h => ?_) ?_ h
    · refine ⟨step_sound hs.1 h, ?_⟩
      rcases Classical.em (e = .check) with rfl | he
      · obtain ⟨_, l, hl, -, rfl⟩ := Sched.check_inv
          (J := fun done l => PendingOf s done l.pending ∧ Whole l.sched)
          ⟨fun p hp => absurd hp (OrdSet.notMem_empty p), hs.2⟩
          (fun _ _ _ _ _ _ hv hl => ⟨visit_pending hv hl.1, visit_whole hs.1 hC hv hl.1 hl.2⟩) h
        exact hl.2
      · intro r hr
        rw [(step_quiet he h).ran] at hr
        exact hs.2 r hr
    · exact ⟨fun _ _ h => (by cases h), forall_mem_nil _⟩
  exact throughout_mono (fun _ hs => hs.2) hall

theorem whole_of_ripe_run : (run (step threeSite) (newSched threeSite 0) laterRun).map
      (fun s => s.ran.map fun r => r.removed) = some [true] ∧
    Throughout (step threeSite) Whole (newSched threeSite 0) laterRun :=
  ⟨by decide, whole_of_ripe (by decide)⟩

/-- A piece that waits for a value of another partition. -/
def waitingPiece : SimpleCommand where
  innId := 2
  type := 2
  input := { keys := OrdSet.insert ∅ 9, inputVarReady := ⟨[(9, false)]⟩, pieceInputReady := false }

/-- Site 0 leads a transaction one piece of which waits for a value. When both others have told later
    timestamps, it is removed here with that piece not executed. -/
theorem removed_unfinished_run : ∃ s', run (handle threeSite) (newSched threeSite 0)
    [.prepareIRT 7 [plainPiece, waitingPiece] ⟨10, 10, 0⟩ [] 10 11, .irSync 0 ⟨20, 20, 0⟩ [] 20,
      .irSync 2 ⟨30, 30, 2⟩ [] 30] = some s' ∧ ¬ Whole s' := by
  have h : (run (handle threeSite) (newSched threeSite 0)
      [.prepareIRT 7 [plainPiece, waitingPiece] ⟨10, 10, 0⟩ [] 10 11, .irSync 0 ⟨20, 20, 0⟩ [] 20,
        .irSync 2 ⟨30, 30, 2⟩ [] 30]).map (fun s => decide (Whole s)) = some false := by decide
  obtain ⟨s', hs', hw⟩ := map_eq_some_iff.mp h
  exact ⟨s', hs', of_decide_eq_false hw⟩

end Fiss.Chronos
