import Fiss.Brq.Server

/-! How often a piece is executed when its transaction commits. Every try at a component starts the
    pieces of its members over, so a piece that was ready at an earlier try runs again. -/

namespace Fiss.Brq
open Fiss.Rcc List Dict
open Option (some.inj map_eq_some_iff bind_eq_some_iff)

/-- The handler runs of the commit phase. -/
def commits (s : Store) : List Ran := s.ran.filter fun r => r.phase = .commit

/-- Where the transaction commits, no piece that is ready has been executed. -/
def Unmarked (d : RccDTxn) : Prop :=
  d.phase = .commit → ∀ c ∈ d.dreqs, c.input.pieceInputReady = true → c.localExecuted = false

/-- Where the transaction commits, it goes on doing so, and a ready piece that was executed stays. -/
def MarksKept (d d' : RccDTxn) : Prop :=
  d.phase = .commit → d'.phase = .commit ∧ ∀ (i : ℕ) (c : SimpleCommand), d.dreqs[i]? = some c →
    c.input.pieceInputReady = true → c.localExecuted = true → d'.dreqs[i]? = some c

/-- The components that are known have no member twice. -/
def NodupSccs (g : Dtxns) : Prop := ∀ x d scc, g.find x = some d → d.scc = some scc → scc.Nodup

/-- No piece has run twice in the commit phase, those that ran are marked, and what is shipped is
    what these runs shipped. -/
structure Once (s : Server) : Prop where
  once : ((commits s.store).map fun r => (r.txn, r.piece)).Nodup
  shipped : s.store.shipped = (commits s.store).flatMap Ran.ships
  marked : ∀ r ∈ commits s.store, ∃ d c, s.dtxns.find r.txn = some d ∧ d.phase = .commit ∧
    d.dreqs[r.piece]? = some c ∧ c.input.pieceInputReady = true ∧ c.localExecuted = true
  sccs : NodupSccs s.dtxns

/-! ### Steps that execute nothing -/

/-- The marks of every record are kept, and no component is new. -/
structure Carries (g g' : Dtxns) : Prop where
  marks : ∀ x d, g.find x = some d → ∃ d', g'.find x = some d' ∧ MarksKept d d'
  sccs : ∀ x d' scc, g'.find x = some d' → d'.scc = some scc →
    ∃ d, g.find x = some d ∧ d.scc = some scc

section Carries

variable {g g' g'' : Dtxns} {d d' d'' : RccDTxn} {s s' : Server} {t : ℕ}

theorem MarksKept.trans (h : MarksKept d d') (h' : MarksKept d' d'') : MarksKept d d'' := by
  intro hph
  obtain ⟨hph', hkept⟩ := h hph
  obtain ⟨hph'', hkept'⟩ := h' hph'
  exact ⟨hph'', fun i c hc hready hex => hkept' i c (hkept i c hc hready hex) hready hex⟩

theorem marksKept_of_eq (hph : d'.phase = d.phase) (hdreqs : d'.dreqs = d.dreqs) :
    MarksKept d d' := fun h => ⟨hph.trans h, fun _ _ hc _ _ => hdreqs ▸ hc⟩

theorem marksKept_of_core (h : d'.core = d.core) : MarksKept d d' :=
  marksKept_of_eq (show d'.core.phase = d.core.phase by rw [h])
    (show d'.core.dreqs = d.core.dreqs by rw [h])

theorem unmarked_of_core (h : d'.core = d.core) (hd : Unmarked d) : Unmarked d' := by
  have hph : d'.phase = d.phase := show d'.core.phase = d.core.phase by rw [h]
  have hdreqs : d'.dreqs = d.dreqs := show d'.core.dreqs = d.core.dreqs by rw [h]
  rw [Unmarked, hph, hdreqs]
  exact hd

theorem Carries.trans (h : Carries g g') (h' : Carries g' g'') : Carries g g'' where
  marks x d hd := by
    obtain ⟨d', hd', hkept⟩ := h.marks x d hd
    obtain ⟨d'', hd'', hkept'⟩ := h'.marks x d' hd'
    exact ⟨d'', hd'', hkept.trans hkept'⟩
  sccs x d'' scc hd'' hscc := by
    obtain ⟨d', hd', hscc'⟩ := h'.sccs x d'' scc hd'' hscc
    exact h.sccs x d' scc hd' hscc'

theorem carries_set (hmarks : MarksKept ((g.find t).getD {}) d)
    (hscc : d.scc = ((g.find t).getD {}).scc) : Carries g (g.set t d) where
  marks x e he := by
    rw [find_set]
    split
    · next hx =>
      subst hx
      rw [he] at hmarks
      exact ⟨d, rfl, hmarks⟩
    · exact ⟨e, he, marksKept_of_eq rfl rfl⟩
  sccs x e scc he hs := by
    rw [find_set] at he
    split at he
    · next hx =>
      subst hx
      obtain rfl := some.inj he
      rw [hscc] at hs
      cases hfind : g.find x with
      | none => rw [hfind] at hs; cases hs
      | some d0 => rw [hfind] at hs; exact ⟨d0, rfl, hs⟩
    · exact ⟨e, he, hs⟩

theorem carries_rel {R : ℕ → RccDTxn → RccDTxn → Prop} (h : Dict.Rel R g g')
    (hR : ∀ x d d', R x d d' → MarksKept d d' ∧ d'.scc = d.scc) : Carries g g' where
  marks x d hd := by
    obtain ⟨d', hd', hdd⟩ := h.find hd
    exact ⟨d', hd', (hR x d d' hdd).1⟩
  sccs x d' scc hd' hscc := by
    obtain ⟨d, hd, hdd⟩ := h.find_rev hd'
    exact ⟨d, hd, (hR x d d' hdd).2.symm.trans hscc⟩

theorem aggregate_rest (d : RccDTxn) (rhs : Vertex) : (d.aggregate rhs).phase = d.phase ∧
    (d.aggregate rhs).dreqs = d.dreqs ∧ (d.aggregate rhs).scc = d.scc := by
  unfold RccDTxn.aggregate
  split_ifs <;> exact ⟨rfl, rfl, rfl⟩

theorem carries_aggregate (g : Dtxns) (graph : Graph) : Carries g (aggregate createV g graph) where
  marks x d hd := by
    rw [find_aggregate, hd]
    cases graph.find x with
    | none => exact ⟨d, rfl, marksKept_of_eq rfl rfl⟩
    | some rhs =>
      obtain ⟨hph, hdreqs, -⟩ := aggregate_rest d rhs
      exact ⟨_, rfl, marksKept_of_eq hph hdreqs⟩
  sccs x d' scc hd' hscc := by
    rw [find_aggregate] at hd'
    cases hrhs : graph.find x with
    | none => rw [hrhs] at hd'; exact ⟨d', hd', hscc⟩
    | some rhs =>
      rw [hrhs, Option.elim_some] at hd'
      rw [← some.inj hd', (aggregate_rest _ rhs).2.2] at hscc
      cases hx : g.find x with
      | none => rw [hx] at hscc; cases hscc
      | some d => rw [hx] at hscc; exact ⟨d, rfl, hscc⟩

theorem Once.keep (h : Once s) (hran : commits s'.store = commits s.store)
    (hship : s'.store.shipped = s.store.shipped)
    (hmarks : ∀ x d, s.dtxns.find x = some d → ∃ d', s'.dtxns.find x = some d' ∧ MarksKept d d')
    (hsccs : NodupSccs s'.dtxns) : Once s' where
  once := hran ▸ h.once
  shipped := by rw [hship, hran, h.shipped]
  marked r hr := by
    obtain ⟨d, c, hd, hph, hc, hready, hex⟩ := h.marked r (hran ▸ hr)
    obtain ⟨d', hd', hkept⟩ := hmarks r.txn d hd
    obtain ⟨hph', hkept⟩ := hkept hph
    exact ⟨d', c, hd', hph', hkept r.piece c hc hready hex, hready, hex⟩
  sccs := hsccs

theorem NodupSccs.carries (h : NodupSccs g) (hg : Carries g g') : NodupSccs g' := by
  intro x d' scc hd' hscc
  obtain ⟨d, hd, hscc'⟩ := hg.sccs x d' scc hd' hscc
  exact h x d scc hd hscc'

theorem Once.carries (h : Once s) (hstore : s'.store = s.store) (hg : Carries s.dtxns s'.dtxns) :
    Once s' :=
  h.keep (by rw [hstore]) (by rw [hstore]) hg.marks (h.sccs.carries hg)

end Carries

/-! ### Executing a component -/

section

variable {site : Site} {s s' : Server} {st st' : Server × Bool} {t v x : ℕ} {isSpec : Bool}
  {scc : List ℕ}

theorem commits_append {s s' : Store} {runs : List Ran} (h : s'.ran = s.ran ++ runs)
    (hruns : ∀ r ∈ runs, r.phase = .commit) : commits s' = commits s ++ runs := by
  have hall : runs.filter (fun r => r.phase = .commit) = runs :=
    filter_eq_self.mpr fun r hr => by simp [hruns r hr]
  rw [commits, h, filter_append, hall, commits]

theorem Once.not_ran {d : RccDTxn} (h : Once s) (hd : s.dtxns.find t = some d) (hun : Unmarked d) :
    ∀ r ∈ commits s.store, r.txn ≠ t := by
  rintro r hr rfl
  obtain ⟨d', c, hd', hph, hc, hready, hex⟩ := h.marked r hr
  obtain rfl := some.inj (hd.symm.trans hd')
  rw [hun hph c (mem_of_getElem? hc) hready] at hex
  exact Bool.noConfusion hex

/-- The commit execution of a transaction without marks runs its pieces for the first time. -/
theorem tryExecReadyPieces_once (h : Once s) (hun : ∀ d, s.dtxns.find t = some d → Unmarked d)
    (hx : s.tryExecReadyPieces site t isSpec = some s') : Once s' := by
  have hkept := tryExecReadyPieces_kept hx
  have hsccs : NodupSccs s'.dtxns := fun x d' scc hd' hscc => by
    obtain ⟨d, hd, hdd⟩ := hkept.find_rev hd'
    exact h.sccs x d scc hd (hdd.scc.symm.trans hscc)
  obtain ⟨d, hd, -, ⟨-, rfl⟩ | ⟨-, w, ret, d', hw, hd', rfl⟩⟩ := tryExecReadyPieces_cases hx
  · refine h.carries rfl (carries_set ?_ ?_)
    · rw [hd]
      exact marksKept_of_core (seen_involve d site.parId).core
    · rw [hd]
      exact (seen_involve d site.parId).scc
  · obtain ⟨st, hst, rfl, -⟩ := commitExecAllRdy_eq_some hw
    obtain ⟨runs, hrec, -⟩ := restart_record (I := fun _ _ => True)
      (fun _ _ _ _ _ _ _ _ _ _ _ _ => trivial) trivial hst
    have hph : st.work.dtxn.phase = .commit := (recursive_rework hst).phase
    have hdreqs : d'.dreqs = st.work.dtxn.dreqs ∧ d'.phase = .commit := by
      rcases hd' with rfl | rfl
      · exact ⟨rfl, hph⟩
      · exact ⟨rfl, hph⟩
    have hcommits : commits st.work.store = commits s.store ++ runs :=
      commits_append hrec.ran fun r hr => (hrec.piece r hr).2.1
    have hold := h.not_ran hd (hun d hd)
    refine ⟨?_, ?_, fun r hr => ?_, hsccs⟩
    · show ((commits st.work.store).map _).Nodup
      rw [hcommits, map_append, nodup_append]
      refine ⟨h.once, ?_, fun a ha b hb hab => ?_⟩
      · refine List.Nodup.of_map Prod.snd ?_
        rw [map_map]
        exact hrec.once
      · -- an older run is of another transaction
        obtain ⟨r, hr, rfl⟩ := mem_map.mp ha
        obtain ⟨r', hr', rfl⟩ := mem_map.mp hb
        exact hold r hr ((Prod.mk.inj hab).1.trans (hrec.piece r' hr').1)
    · show st.work.store.shipped = (commits st.work.store).flatMap Ran.ships
      rw [hcommits, flatMap_append, hrec.shipped, ← h.shipped]
    · rw [show (s.setWork site t ⟨d', st.work.store⟩ ret).store = st.work.store from rfl,
        hcommits] at hr
      rcases mem_append.mp hr with hr | hr
      · obtain ⟨d0, c, hd0, hrest⟩ := h.marked r hr
        exact ⟨d0, c, (find_set_ne _ (hold r hr) _).trans hd0, hrest⟩
      · obtain ⟨htxn, -, c, hc, hex, hready, -⟩ := hrec.piece r hr
        refine ⟨d', c, ?_, hdreqs.2, hdreqs.1 ▸ hc, hready, hex⟩
        rw [htxn]
        exact find_set_self ..

theorem executeMember_once (h : Once st.1) (hun : ∀ d, st.1.dtxns.find v = some d → Unmarked d)
    (hm : Server.executeMember site st v = some st') : Once st'.1 := by
  obtain ⟨s1, d, hs1, hd, heq | ⟨-, heq⟩⟩ := executeMember_cases hm
  · rw [heq]
    exact tryExecReadyPieces_once h hun hs1
  · rw [heq]
    refine (tryExecReadyPieces_once h hun hs1).carries rfl (carries_set ?_ ?_)
    · rw [hd]
      exact marksKept_of_eq rfl rfl
    · rw [hd]
      rfl

theorem run_executeMember_once : ∀ (vs : List ℕ) (st st' : Server × Bool), vs.Nodup → Once st.1 →
    (∀ u ∈ vs, ∀ d, st.1.dtxns.find u = some d → Unmarked d) →
    run (Server.executeMember site) st vs = some st' → Once st'.1
  | [], _, _, _, h, _, hr => some.inj hr ▸ h
  | v :: vs, st, st', hnd, h, hun, hr => by
    obtain ⟨hv, hvs⟩ := nodup_cons.mp hnd
    obtain ⟨st1, h1, hr⟩ := run_cons.mp hr
    obtain ⟨hunv, hun⟩ := forall_mem_cons.mp hun
    refine run_executeMember_once vs st1 st' hvs (executeMember_once h hunv h1)
      (fun u hu d hd => ?_) hr
    rw [executeMember_other h1 fun huv => hv (huv ▸ hu)] at hd
    exact hun u hu d hd

theorem executeScc_once (hnd : scc.Nodup) (h : Once s)
    (hun : ∀ u ∈ scc, ∀ d, s.dtxns.find u = some d → Unmarked d)
    (hx : s.executeScc site scc = some s') : Once s' := by
  obtain ⟨st, hst, rfl⟩ := map_eq_some_iff.mp hx
  exact run_executeMember_once scc (s, false) st hnd h hun hst

end

/-! ### Looks -/

section

variable {site : Site} {now : ℕ → ℕ} {g g' : Dtxns} {s s' s1 : Server} {v u : ℕ} {scc : List ℕ}
  {r : Option (List ℕ) × Server}

theorem findSccPred_nodup (hn : NodupSccs g) (hf : findSccPred g v = some (scc, g')) :
    scc.Nodup ∧ NodupSccs g' := by
  have hrel := findSccPred_rel hf
  have hfound : scc.Nodup := by
    obtain ⟨d, hd, hf⟩ := bind_eq_some_iff.mp hf
    cases hscc : d.scc with
    | some c =>
      rw [hscc] at hf
      obtain ⟨rfl, -⟩ := Prod.mk.inj (some.inj hf)
      exact hn v d c hd hscc
    | none =>
      rw [hscc] at hf
      obtain ⟨g1, -, heq⟩ := map_eq_some_iff.mp hf
      obtain ⟨rfl, -⟩ := Prod.mk.inj heq
      exact nodup_component openParents_mem_keys (mem_dedup_keys hd)
  refine ⟨hfound, fun x d' c hd' hc => ?_⟩
  obtain ⟨d, hd, rfl | rfl⟩ := hrel.find_rev hd'
  · exact hn x d' c hd hc
  · rw [← some.inj hc]
    exact hfound

theorem NodupSccs.looked {N : ℕ → Prop} (h : NodupSccs g) (hg : Looked N g g') : NodupSccs g' :=
  h.carries (carries_rel hg fun _ _ _ hd => ⟨marksKept_of_core hd.core, hd.scc⟩)

theorem nodupSccs_decideScc (h : NodupSccs g) (scc : List ℕ) : NodupSccs (decideScc scc g) := by
  intro x d' c hd' hc
  obtain ⟨d, hd, rfl | ⟨-, rfl⟩⟩ := (decideScc_rel scc g).find_rev hd'
  · exact h x d' c hd hc
  · exact h x d c hd hc

theorem lookAt_once (h : Once s) (hlook : s.lookAt site now v = some r) :
    Once r.2 ∧ ∀ scc, r.1 = some scc → scc.Nodup ∧ ∀ u ∈ scc, InComponent s.dtxns v u := by
  have hstore := (lookAt_sameStore hlook).1
  have hmarks : ∀ x d, s.dtxns.find x = some d →
      ∃ d', r.2.dtxns.find x = some d' ∧ MarksKept d d' := fun x d hd => by
    obtain ⟨d', hd', hcore⟩ := (lookAt_sameCore hlook).find hd
    exact ⟨d', hd', marksKept_of_core hcore⟩
  rcases lookAt_cases hlook with ⟨hnone, hr⟩ | ⟨g1, c, g2, fns, h1, hf, hfns, hr, hout⟩
  · refine ⟨h.keep (by rw [hstore]) (by rw [hstore]) hmarks (h.sccs.looked hr), fun scc hscc => ?_⟩
    cases hnone.symm.trans hscc
  · obtain ⟨hnd, hsccs⟩ := findSccPred_nodup (h.sccs.looked h1) hf
    have hlast := ((nodupSccs_decideScc hsccs c).looked (allAncFns_looked hfns)).looked hr
    refine ⟨h.keep (by rw [hstore]) (by rw [hstore]) hmarks hlast, fun scc hscc => ?_⟩
    rcases hout with hnone | ⟨hsome, -⟩
    · cases hnone.symm.trans hscc
    · obtain rfl := some.inj (hsome.symm.trans hscc)
      exact ⟨hnd, fun u hu => inComponent_of_rel h1 (fun _ _ _ hd => ⟨hd.parents, .inl hd.scc⟩)
        (findSccPred_mem hf hu)⟩

theorem lookAt_waiting (hlook : s.lookAt site now v = some (some scc, s1)) :
    ∃ d, s.dtxns.find v = some d ∧ txnCmt ≤ d.status ∧ d.executed = false := by
  obtain ⟨d, hd, hlook⟩ := bind_eq_some_iff.mp hlook
  have hseen := seen_involve d site.parId
  simp only at hlook
  split at hlook
  · next hcond =>
    refine ⟨d, hd, hseen.status ▸ hcond.1, ?_⟩
    by_contra hex
    rw [hseen.executed (eq_true_of_ne_false hex)] at hcond
    exact Bool.noConfusion hcond.2
  · cases (Prod.mk.inj (some.inj hlook)).1

end

/-! ### Steps of a server -/

/-- No commit execution is tried again: where a committed transaction that is not executed is looked
    at, no member of its component has a ready piece that was executed in the commit phase, nor has
    a transaction that is committed without a graph. -/
def FirstTry (s : Server) : Event → Prop
  | .check e => ∀ d, s.dtxns.find e.v = some d → txnCmt ≤ d.status → d.executed = false →
      ∀ u d', InComponent s.dtxns e.v u → s.dtxns.find u = some d' → Unmarked d'
  | .commit t none => (recordOf t s).executed = false → Unmarked (recordOf t s)
  | _ => True

section Steps

variable {site : Site} {s s' : Server} {t : ℕ} {e : Event}

theorem checkStep_once {e : Check} (h : Once s) (hc : FirstTry s (.check e))
    (hx : s.checkStep site e = some s') : Once s' := by
  obtain ⟨r, s1, hlook, hexec, hleave, hleft⟩ := checkEntry_cases hx
  obtain ⟨hr, hscc⟩ := lookAt_once h hlook
  have hs1 : Once s1 := by
    rcases hexec with ⟨-, rfl⟩ | ⟨scc, hsome, hrun⟩
    · exact hr
    · obtain ⟨hnd, hmem⟩ := hscc scc hsome
      have hlook' : s.lookAt site e.now e.v = some (some scc, r.2) := by rw [hlook, ← hsome]
      obtain ⟨d, hd, hcmt, hno⟩ := lookAt_waiting hlook'
      refine executeScc_once hnd hr (fun u hu d' hd' => ?_) hrun
      obtain ⟨d0, hd0, hcore⟩ := (lookAt_sameCore hlook).find_rev hd'
      exact unmarked_of_core hcore (hc d hd hcmt hno u d0 (hmem u hu) hd0)
  exact hs1.carries (leave_sameStore hleave).1
    (carries_rel hleft fun _ _ _ hd => ⟨marksKept_of_core hd.core, hd.scc⟩)

theorem preAccepted_rest (site : Site) (t rootType : ℕ) (s : Server) :
    (preAccepted site t rootType s).phase = (recordOf t s).phase ∧
      (preAccepted site t rootType s).dreqs = (recordOf t s).dreqs ∧
      (preAccepted site t rootType s).scc = (recordOf t s).scc := by
  unfold preAccepted RccDTxn.updateStatus
  split <;> exact ⟨rfl, rfl, rfl⟩

theorem takePieces_commits {cmds : List SimpleCommand} {w w' : Work}
    (h : takePieces site t cmds w = some w') :
    commits w'.store = commits w.store ∧ w'.store.shipped = w.store.shipped ∧
      MarksKept w.dtxn w'.dtxn ∧ w'.dtxn.scc = w.dtxn.scc := by
  rcases takePieces_cases h with ⟨hph, hexec⟩ | ⟨-, hno, rfl⟩ | rfl
  · obtain ⟨-, hship, runs, hran, hruns⟩ := dispatchExec_dispatched hexec
    obtain ⟨parents, dreqs, n, output, hd, -⟩ := dispatchExec_rework hexec
    refine ⟨?_, hship, fun hc => ?_, by rw [hd]; rfl⟩
    · have hnone : runs.filter (fun r => r.phase = .commit) = [] :=
        filter_eq_nil_iff.mpr fun r hr => by simp [hruns r hr]
      rw [commits, hran, filter_append, hnone, append_nil, commits]
    · cases hph.symm.trans hc
  · refine ⟨rfl, rfl, fun hc => ⟨hc, fun i c hget => ?_⟩, rfl⟩
    rw [hno] at hget
    cases hget
  · exact ⟨rfl, rfl, marksKept_of_eq rfl rfl, rfl⟩

theorem preAccept_once {cmds : List SimpleCommand} (h : Once s)
    (hx : step site s (.preAccept t cmds) = some s') : Once s' := by
  obtain ⟨r, hr, rfl⟩ := map_eq_some_iff.mp hx
  obtain ⟨first, -, ⟨-, rfl⟩ | ⟨w, report, hw, hreport, hdtxns, hstore⟩⟩ :=
    onPreAcceptWoGraph_cases hr
  · obtain ⟨hph, hdreqs, hscc⟩ := preAccepted_rest site t first.rootType s
    exact h.carries rfl (carries_set (marksKept_of_eq hph hdreqs) hscc)
  · obtain ⟨hph, hdreqs, hscc⟩ := preAccepted_rest site t first.rootType s
    obtain ⟨hran, hship, hmarks, hscc'⟩ := takePieces_commits hw
    have hset : Carries s.dtxns (s.dtxns.set t (setFullyDispatched w.dtxn)) :=
      carries_set (((marksKept_of_eq hph hdreqs).trans hmarks).trans (marksKept_of_eq rfl rfl))
        (hscc'.trans hscc)
    have hbits : Carries (s.dtxns.set t (setFullyDispatched w.dtxn)) report.dtxns :=
      carries_rel (minItfrGraph_bits hreport) fun _ _ _ hd => by
        obtain ⟨bits, rfl⟩ := hd
        exact ⟨marksKept_of_eq rfl rfl, rfl⟩
    have hall : Carries s.dtxns r.1.dtxns := hdtxns ▸ hset.trans hbits
    exact h.keep (by rw [hstore]; exact hran) (by rw [hstore]; exact hship) hall.marks
      (h.sccs.carries hall)

theorem accept_once {ballot : ℕ} {graph : Graph} (h : Once s)
    (hx : step site s (.accept t ballot graph) = some s') : Once s' := by
  simp only [step, onAccept] at hx
  split at hx
  · cases hx
  · obtain rfl := some.inj hx
    refine h.carries rfl ((carries_set ?_ ?_).trans (carries_aggregate _ graph))
    · obtain ⟨shards, hd⟩ := touchShards_eq site (setBallot ballot (fetch site t s))
      rw [hd]
      exact marksKept_of_eq rfl rfl
    · obtain ⟨shards, hd⟩ := touchShards_eq site (setBallot ballot (fetch site t s))
      rw [hd]
      rfl

theorem marksKept_merge (output : Dict ℕ Value) (d : RccDTxn) :
    MarksKept d (setDreqs (mergeCheckReadyPieces output d.dreqs).1 d) := by
  refine fun hph => ⟨hph, fun i c hc hready _ => ?_⟩
  rw [setDreqs, mergeCheckReadyPieces_eq, getElem?_map, hc, Option.map_some,
    offers_of_ready hready]

theorem output_once (h : Once s) (values : Dict ℕ Value) : Once (takeOutput site t values s).1 := by
  rw [takeOutput]
  simp only
  split
  · exact h.carries rfl (carries_set (marksKept_of_eq rfl rfl) rfl)
  · refine h.carries (by split <;> rfl) ?_
    have hset : Carries s.dtxns (s.dtxns.set t (setDreqs
        (mergeCheckReadyPieces values (fetch site t s).dreqs).1 (fetch site t s))) :=
      carries_set ((marksKept_of_eq (d := recordOf t s) rfl rfl).trans
        (marksKept_merge values (fetch site t s))) rfl
    split <;> exact hset

theorem received_rest (site : Site) (t : ℕ) (s : Server) :
    (received site t s).phase = (recordOf t s).phase ∧
      (received site t s).dreqs = (recordOf t s).dreqs ∧
      (received site t s).scc = (recordOf t s).scc ∧
      (received site t s).executed = (recordOf t s).executed := by
  obtain ⟨shards, hd⟩ := touchShards_eq site { fetch site t s with outputReply := true }
  rw [received, hd]
  exact ⟨rfl, rfl, rfl, rfl⟩

theorem commit_once {graph : Option Graph} (h : Once s) (hc : FirstTry s (.commit t graph))
    (hx : step site s (.commit t graph) = some s') : Once s' := by
  obtain ⟨r, hr, rfl⟩ := map_eq_some_iff.mp hx
  obtain ⟨hph, hdreqs, hscc, hexec⟩ := received_rest site t s
  have hcame : Once (commitReceived site t s) :=
    h.carries rfl (carries_set (marksKept_of_eq hph hdreqs) hscc)
  obtain ⟨-, ⟨-, rfl⟩ | ⟨hno, ⟨rfl, hrun⟩ | ⟨g, rfl, rfl⟩⟩⟩ := takeCommit_cases hr
  · exact hcame
  · obtain ⟨-, hrun⟩ := Option.ite_none_right_eq_some.mp hrun
    obtain ⟨s1, hs1, hrun⟩ := bind_eq_some_iff.mp hrun
    obtain ⟨d1, -, rfl⟩ := map_eq_some_iff.mp hrun
    have hput : Once (put t ((setCommitRequested (received site t s)).unionStatus txnDcd)
        (commitReceived site t s)) := by
      refine hcame.carries rfl (carries_set ?_ ?_)
      · rw [commitReceived_find]
        exact marksKept_of_eq rfl rfl
      · rw [commitReceived_find]
        rfl
    refine (tryExecReadyPieces_once hput (fun d hd => ?_) hs1).carries rfl
      (carries_rel (rel_refl (fun _ _ => rfl) _) fun _ d d' hd => ?_)
    · rw [put, Server.setDtxns, find_set_self] at hd
      rw [← some.inj hd]
      intro hcommit
      show ∀ c ∈ (received site t s).dreqs, _
      rw [hdreqs]
      exact hc (hexec ▸ hno) (hph ▸ hcommit)
    · rw [← hd]
      exact ⟨marksKept_of_eq rfl rfl, rfl⟩
  · refine hcame.carries rfl ((carries_set ?_ ?_).trans (carries_aggregate _ g))
    · rw [commitReceived_find]
      exact marksKept_of_eq rfl rfl
    · rw [commitReceived_find]
      rfl

theorem step_once (h : Once s) (hc : FirstTry s e) (hx : step site s e = some s') : Once s' := by
  cases e with
  | preAccept t cmds => exact preAccept_once h hx
  | accept t ballot graph => exact accept_once h hx
  | output t values =>
    obtain rfl := some.inj hx
    exact output_once h values
  | commit t graph => exact commit_once h hc hx
  | check e => exact checkStep_once h hc hx

/-- A server that has its tables and no transaction yet. -/
def boot (rows : List Row) : Server := { store := { rows := rows } }

theorem boot_once (rows : List Row) : Once (boot rows) :=
  ⟨nodup_nil, rfl, forall_mem_nil _, fun _ _ _ hd => by cases hd⟩

/-- In a run in which no commit execution is tried again, each piece of each transaction runs at most
    once in the commit phase, and what is shipped is what these runs shipped. -/
theorem commit_runs_once {rows : List Row} {es : List Event}
    (h : Along (step site) FirstTry (boot rows) es) :
    Throughout (step site) (fun s => ((commits s.store).map fun r => (r.txn, r.piece)).Nodup ∧
      s.store.shipped = (commits s.store).flatMap Ran.ships) (boot rows) es :=
  throughout_mono (fun _ hs => ⟨hs.once, hs.shipped⟩)
    (throughout_of_inv (fun _ _ _ hs hc hx => step_once hs hc hx) (boot_once rows) h)

theorem firstTry_of_phases (h : ∀ x ∈ s.dtxns.entries, x.2.phase ≠ .commit) : FirstTry s e := by
  have hun : ∀ x d, s.dtxns.find x = some d → Unmarked d := fun x d hd hph =>
    absurd hph (h _ (mem_entries_of_find hd))
  cases e with
  | check e => exact fun _ _ _ _ u d' _ hd' => hun u d' hd'
  | commit t graph =>
    cases graph with
    | some g => exact trivial
    | none =>
      intro _
      cases hd : s.dtxns.find t with
      | none => rw [recordOf, hd]; exact fun hph => by cases hph
      | some d => rw [recordOf, hd]; exact hun t d hd
  | preAccept t cmds | accept t ballot graph | output t values => exact trivial

/-- A leader whose pieces of type 1 overwrite a cell. -/
def writeSite : Site :=
  { parId := 0
    leader := true
    handler := fun _ type _ =>
      if type = 1 then .write 0 0 (.i32 9) .deferred (.done {}) else .done {} }

def oneCell : List Row := [⟨0, [.i32 1]⟩]

def writePiece : SimpleCommand := { innId := 0, type := 1 }

/-- A piece that waits for a variable and may do so at dispatch. -/
def laterPiece : SimpleCommand :=
  { innId := 1, type := tpccPayment5, input := ⟨{7}, {}, ⟨[(7, false)]⟩, false⟩ }

def committedGraph : Graph := ⟨[(1, { status := txnCmt, partition := {0} })]⟩

/-- Transaction 1, with one piece, from its pre-accept to its execution. -/
def plainRun : List Event :=
  [.preAccept 1 [writePiece], .commit 1 (some committedGraph), .check ⟨1, fun _ => 0⟩]

theorem commit_runs_once_plain : (run (step writeSite) (boot oneCell) plainRun).map (fun s =>
      (commits s.store).map fun r => (r.txn, r.piece)) = some [(1, 0)] ∧
    Throughout (step writeSite) (fun s => ((commits s.store).map fun r => (r.txn, r.piece)).Nodup ∧
      s.store.shipped = (commits s.store).flatMap Ran.ships) (boot oneCell) plainRun := by
  refine ⟨by decide, commit_runs_once ?_⟩
  have hphases : Along (step writeSite) (fun s _ => ∀ x ∈ s.dtxns.entries, x.2.phase ≠ .commit)
      (boot oneCell) plainRun := by decide
  exact along_mono (fun _ _ => firstTry_of_phases) hphases

/-- A value comes for the piece that waits, and the other piece runs and ships a second time. -/
theorem commit_runs_twice :
    ((onPreAcceptWoGraph writeSite 1 [writePiece, laterPiece] (boot oneCell)).bind fun r =>
      (onCommit writeSite (fun _ _ => 0) [1] 1 (some committedGraph) r.1).bind fun s =>
        onSendOutput writeSite (fun _ _ => 0) [1] 1 ⟨[(7, .i32 5)]⟩ s).map (fun s =>
      ((commits s.store).map fun r => (r.txn, r.piece), s.store.shipped)) =
      some ([(1, 0), (1, 0), (1, 1)],
        [⟨1, .update, 0, 0, 0, .i32 9⟩, ⟨1, .update, 0, 0, 0, .i32 9⟩]) := by
  decide

end Steps

end Fiss.Brq
