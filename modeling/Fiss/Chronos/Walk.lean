import Fiss.Chronos.Sched

/-! What `CheckExecutableTxns` does: which callbacks run, in which order, and what they leave of the
    records. Its loop goes over the ready transactions as they were when it began, since no callback
    changes `ready_txns_` and only the entry of the transaction at hand is removed. -/

namespace Fiss.Chronos
open Fiss.Rcc List Dict
open Option (some.inj map_eq_some_iff)

/-- What `CheckExecutableTxns` leaves of a record. -/
structure Kept (d d' : TxChronos) : Prop where
  ts : d'.ts = d.ts
  commitTs : d'.commitTs = d.commitTs
  regionHandler : d'.regionHandler = d.regionHandler
  callback : d'.callback = d.callback
  nLocalPieces : d'.nLocalPieces = d.nLocalPieces
  acks : d'.distPartitionAcks = d.distPartitionAcks
  anticipated : d'.anticipatedTs = d.anticipatedTs
  phase : d'.chrPhase = d.chrPhase ∨ d'.chrPhase = .outputSent
  pieces : List.Forall₂ PieceKept d.pieces d'.pieces
  counted : d.Counted → d'.Counted

namespace Kept

variable {d d' d'' : TxChronos}

theorem refl (d : TxChronos) : Kept d d :=
  ⟨rfl, rfl, rfl, rfl, rfl, rfl, rfl, .inl rfl,
    forall₂_same.mpr fun c _ => PieceKept.refl c, id⟩

theorem trans (h : Kept d d') (h' : Kept d' d'') : Kept d d'' where
  ts := h'.ts.trans h.ts
  commitTs := h'.commitTs.trans h.commitTs
  regionHandler := h'.regionHandler.trans h.regionHandler
  callback := h'.callback.trans h.callback
  nLocalPieces := h'.nLocalPieces.trans h.nLocalPieces
  acks := h'.acks.trans h.acks
  anticipated := h'.anticipated.trans h.anticipated
  phase := h'.phase.elim (fun hp => h.phase.imp hp.trans hp.trans) .inr
  pieces := forall₂_pieceKept_trans h.pieces h'.pieces
  counted hd := h'.counted (h.counted hd)

theorem of_worked (h : Worked d d') : Kept d d' := by
  obtain ⟨pieces, n, output, hd⟩ := h.frame
  have hpieces := h.pieces
  have hcounted := h.counted
  rw [hd] at hpieces hcounted ⊢
  exact ⟨rfl, rfl, rfl, rfl, rfl, rfl, rfl, .inl rfl, hpieces, hcounted⟩

end Kept

/-- A record with its phase and the status of its partitions replaced. -/
def TxChronos.close (d : TxChronos) (status : OrdMap ℕ DistPartStatus) (phase : TxnPhase) :
    TxChronos :=
  { d with distPartitionStatus := status, chrPhase := phase }

theorem Kept.close (d : TxChronos) (status : OrdMap ℕ DistPartStatus) {phase : TxnPhase}
    (h : phase = d.chrPhase ∨ phase = .outputSent) : Kept d (d.close status phase) :=
  ⟨rfl, rfl, rfl, rfl, rfl, rfl, rfl, h, forall₂_same.mpr fun c _ => PieceKept.refl c, id⟩

namespace Sched

variable {site : Site} {id : ℕ} {d : TxChronos} {pending pending' : OrdSet ℕ} {s s' : Sched}
  {fin : Bool}

/-- Between the two states only the record of `id` has changed, to `d'`; the fields a callback never
    writes are the same. -/
structure Only (id : ℕ) (d' : TxChronos) (s s' : Sched) : Prop where
  ran : s'.ran = s.ran
  ready : s'.readyTxns = s.readyTxns
  maxTs : s'.irSiteMaxTs = s.irSiteMaxTs
  find : ∀ x, s'.dtxns.find x = if x = id then some d' else s.dtxns.find x

theorem Only.put (id : ℕ) (d : TxChronos) (s : Sched) : Only id d s (s.put id d) :=
  ⟨rfl, rfl, rfl, fun x => find_set s.dtxns id x d⟩

theorem Only.same (h : s.dtxns.find id = some d) : Only id d s s := by
  refine ⟨rfl, rfl, rfl, fun x => ?_⟩
  split
  · next hx => rw [hx, h]
  · rfl

theorem checkSendOutputToClient_only (h : s.checkSendOutputToClient id d = some s') :
    ∃ phase, (phase = d.chrPhase ∨ phase = .outputSent) ∧
      Only id (d.close d.distPartitionStatus phase) s s' := by
  unfold checkSendOutputToClient at h
  split at h
  · obtain rfl := some.inj h
    exact ⟨d.chrPhase, .inl rfl, Only.put id d s⟩
  · split at h
    · obtain ⟨-, h⟩ := Option.ite_none_right_eq_some.mp h
      obtain rfl := some.inj h
      exact ⟨.outputSent, .inr rfl, ⟨rfl, rfl, rfl, fun x => find_set s.dtxns id x _⟩⟩
    · obtain rfl := some.inj h
      exact ⟨d.chrPhase, .inl rfl, Only.put id d s⟩

theorem finish_only (hd : s.dtxns.find id = some d) (h : s.finish site id d = some s') :
    ∃ status phase, (phase = d.chrPhase ∨ phase = .outputSent) ∧
      Only id (d.close status phase) s s' := by
  unfold finish at h
  split at h
  · obtain rfl := some.inj h
    exact ⟨d.distPartitionStatus, _, .inl rfl, ⟨rfl, rfl, rfl, (Only.same hd).find⟩⟩
  · obtain rfl := some.inj h
    refine ⟨d.distPartitionStatus, _, .inl rfl, ?_⟩
    split
    · exact ⟨rfl, rfl, rfl, (Only.same hd).find⟩
    · exact Only.same hd
  · obtain ⟨-, h⟩ := Option.ite_none_right_eq_some.mp h
    obtain ⟨phase, hphase, hs⟩ := checkSendOutputToClient_only h
    exact ⟨_, phase, hphase, ⟨hs.ran, hs.ready, hs.maxTs, hs.find⟩⟩
  · obtain rfl := some.inj h
    exact ⟨d.distPartitionStatus, _, .inl rfl, Only.same hd⟩

/-- What a callback does. -/
structure Executed (site : Site) (id : ℕ) (d : TxChronos) (pending : OrdSet ℕ) (s : Sched)
    (fin : Bool) (pending' : OrdSet ℕ) (s' : Sched) (d' : TxChronos) : Prop where
  only : Only id d' s s'
  kept : Kept d d'
  finished : fin = true → d.callback ≠ .unset ∧ d'.nLocalPieces = some d'.nExecutedPieces
  all : d.callback ≠ .unset → site.Unhindered pending d → ∀ c ∈ d'.pieces, c.localExecuted = true
  pending : ∀ p ∈ pending', p ∈ pending ∨ ∃ c ∈ d.pieces, c.localExecuted = false ∧ c.innId = p

theorem Only.trans {d1 d2 : TxChronos} {t : Sched} (h : Only id d1 s t) (h' : Only id d2 t s') :
    Only id d2 s s' := by
  refine ⟨h'.ran.trans h.ran, h'.ready.trans h.ready, h'.maxTs.trans h.maxTs, fun x => ?_⟩
  rw [h'.find, h.find]
  split <;> rfl

theorem conclude_executed (hd : s.dtxns.find id = some d)
    (h : s.conclude site id d pending = some (fin, pending', s')) :
    pending' = pending ∧ ∃ status phase, (phase = d.chrPhase ∨ phase = .outputSent) ∧
      Only id (d.close status phase) s s' ∧ (fin = true → d.nLocalPieces = some d.nExecutedPieces) := by
  unfold conclude at h
  split at h
  · next hfin =>
    obtain ⟨t, ht, heq⟩ := map_eq_some_iff.mp h
    obtain ⟨-, hrest⟩ := Prod.mk.inj heq
    obtain ⟨rfl, rfl⟩ := Prod.mk.inj hrest
    obtain ⟨status, phase, hphase, honly⟩ := finish_only hd ht
    exact ⟨rfl, status, phase, hphase, honly, fun _ => hfin⟩
  · obtain ⟨rfl, hrest⟩ := Prod.mk.inj (some.inj h)
    obtain ⟨rfl, rfl⟩ := Prod.mk.inj hrest
    exact ⟨rfl, d.distPartitionStatus, d.chrPhase, .inl rfl, Only.same hd, fun h => (by cases h)⟩

theorem mem_addPending {p : ℕ} (h : p ∈ d.addPending pending) :
    p ∈ pending ∨ ∃ c ∈ d.pieces, c.localExecuted = false ∧ c.innId = p := by
  rw [TxChronos.addPending, ← foldl_map (f := SimpleCommand.innId) (g := OrdSet.insert)] at h
  rcases OrdSet.mem_foldl_insert.mp h with h | h
  · exact .inl h
  · obtain ⟨c, hc, rfl⟩ := mem_map.mp h
    obtain ⟨hc, hno⟩ := mem_filter.mp hc
    exact .inr ⟨c, hc, Bool.not_eq_true' _ ▸ hno, rfl⟩

theorem execute_executed (hd : s.dtxns.find id = some d)
    (h : s.execute site id d pending = some (fin, pending', s')) :
    ∃ d', Executed site id d pending s fin pending' s' d' := by
  unfold execute at h
  split at h
  · next hun =>
    obtain ⟨rfl, hrest⟩ := Prod.mk.inj (some.inj h)
    obtain ⟨rfl, rfl⟩ := Prod.mk.inj hrest
    exact ⟨d, Only.same hd, Kept.refl d, fun h => (by cases h), fun hset => absurd hun hset,
      fun p hp => .inl hp⟩
  · next hset =>
    split at h
    · next hempty =>
      obtain ⟨rfl, status, phase, hphase, honly, hfin⟩ := conclude_executed hd h
      refine ⟨d.close status phase, honly, Kept.close d status hphase,
        fun h => ⟨hset, hfin h⟩, fun _ _ c hc => ?_,
        fun p hp => .inl hp⟩
      rw [TxChronos.close, hempty.2] at hc
      exact absurd hc not_mem_nil
    · obtain ⟨st, hst, h⟩ := Option.bind_eq_some_iff.mp h
      have hworked := recursive_worked hst
      obtain ⟨rfl, status, phase, hphase, honly, hfin⟩ :=
        conclude_executed (find_set_self s.dtxns id st.dtxn) h
      have honly' : Only id (st.dtxn.close status phase) s s' :=
        Only.trans (Only.put id st.dtxn s) ⟨honly.ran, honly.ready, honly.maxTs, honly.find⟩
      refine ⟨st.dtxn.close status phase, honly',
        (Kept.of_worked hworked).trans (Kept.close st.dtxn status hphase),
        fun h => ⟨hset, hfin h⟩, fun _ hun => recursive_all hun hst, fun p hp => ?_⟩
      rcases mem_addPending hp with hp | ⟨c', hc', hno, rfl⟩
      · exact .inl hp
      · obtain ⟨c, hc, hk⟩ := exists_of_kept hworked.pieces hc'
        refine .inr ⟨c, hc, eq_false_of_ne_true fun hex => ?_, hk.innId.symm⟩
        cases hno.symm.trans (hk.executed hex)

/-- The callback of the transaction at `k` runs between the two loop states. -/
structure Called (site : Site) (k : ChrTs) (id : ℕ) (d d' : TxChronos) (removed : Bool) (l l' : Loop) :
    Prop where
  executed : ∃ fin s, Executed site id d l.pending l.sched fin l'.pending s d' ∧
    removed = (fin || decide (d.regionHandler ≠ site.siteId)) ∧ l'.sched.dtxns = s.dtxns
  ran : l'.sched.ran =
    l.sched.ran ++ [⟨k, id, l.sched.dtxns, l.sched.irSiteMaxTs, some d', removed⟩]
  maxTs : l'.sched.irSiteMaxTs = l.sched.irSiteMaxTs

theorem call_called {k : ChrTs} {l : Loop} {r : Bool × Loop} (hd : l.sched.dtxns.find id = some d)
    (h : l.call site k id d = some r) : ∃ d',
      Called site k id d d' (r.1 || decide (d.regionHandler ≠ site.siteId)) l r.2 ∧
        r.2.sched.readyTxns = l.sched.readyTxns := by
  obtain ⟨⟨fin, pending', s⟩, hex, rfl⟩ := map_eq_some_iff.mp h
  obtain ⟨d', hd'⟩ := execute_executed hd hex
  refine ⟨d', ⟨⟨fin, s, hd', rfl, rfl⟩, ?_, hd'.only.maxTs⟩, hd'.only.ready⟩
  simp only [log, hd'.only.find, if_pos, hd'.only.ran]

/-- A transaction is visited: its callback runs, or, at the region handler, it has been tried before
    and there is no new input. -/
inductive Visited (site : Site) (k : ChrTs) (id : ℕ) (d : TxChronos) (l l' : Loop) : Prop
  | skip (sched : l'.sched = l.sched) (pending : l'.pending = l.pending)
  | call (d' : TxChronos) (removed : Bool) (called : Called site k id d d' removed l l')
      (ready : l'.sched.readyTxns =
        if removed then l.sched.readyTxns.erase k else l.sched.readyTxns)

theorem visit_visited {k : ChrTs} {l l' : Loop} (hd : l.sched.dtxns.find id = some d)
    (h : l.visit site k id d = some l') : Visited site k id d l l' := by
  unfold Loop.visit at h
  split at h
  · next hhandler =>
    split at h
    · obtain ⟨⟨fin, l1⟩, hr, rfl⟩ := map_eq_some_iff.mp h
      obtain ⟨d', hcalled, hready⟩ := call_called hd hr
      rw [decide_eq_false (not_not.mpr hhandler), Bool.or_false] at hcalled
      cases fin with
      | true =>
        exact .call d' true ⟨hcalled.executed, hcalled.ran, hcalled.maxTs⟩
          (congrArg (OrdMap.erase · k) hready)
      | false => exact .call d' false ⟨hcalled.executed, hcalled.ran, hcalled.maxTs⟩ hready
    · obtain rfl := some.inj h
      exact .skip rfl rfl
  · next hhandler =>
    obtain ⟨⟨fin, l1⟩, hr, rfl⟩ := map_eq_some_iff.mp h
    obtain ⟨d', hcalled, hready⟩ := call_called hd hr
    rw [decide_eq_true hhandler, Bool.or_true] at hcalled
    exact .call d' true ⟨hcalled.executed, hcalled.ran, hcalled.maxTs⟩
      (congrArg (OrdMap.erase · k) hready)

theorem walk_inv {entries : List (ChrTs × ℕ)} {J : List (ChrTs × ℕ) → Loop → Prop}
    (hvisit : ∀ done k id rest d l l', entries = done ++ (k, id) :: rest → J done l →
      l.sched.dtxns.find id = some d → l.sched.stops d = false → l.visit site k id d = some l' →
        J (done ++ [(k, id)]) l') :
    ∀ {rest done : List (ChrTs × ℕ)} {l : Loop}, entries = done ++ rest → J done l →
      Loop.walk site rest l = some s' → ∃ done' l', J done' l' ∧ s' = l'.sched
  | [], done, l, _, hl, h => ⟨done, l, hl, (some.inj h).symm⟩
  | (k, id) :: rest, done, l, he, hl, h => by
    unfold Loop.walk at h
    split at h
    · cases h
    · next d hd =>
      split at h
      · exact ⟨done, l, hl, (some.inj h).symm⟩
      · next hstop =>
        obtain ⟨l1, h1, h⟩ := Option.bind_eq_some_iff.mp h
        have hl1 := hvisit done k id rest d l l1 he hl hd (eq_false_of_ne_true hstop) h1
        split at h
        · exact ⟨_, l1, hl1, (some.inj h).symm⟩
        · exact walk_inv hvisit (by rw [he, append_assoc]; rfl) hl1 h

theorem stops_eq_false : s.stops d = false ↔
    (∀ e ∈ s.irSiteMaxTs.entries, d.commitTs < e.2) ∧ phaseCanExe ≤ d.chrPhase.rank := by
  rw [stops, Bool.or_eq_false_iff, any_eq_false, decide_eq_false_iff_not, not_lt]
  refine and_congr_left fun _ => forall₂_congr fun e _ => ?_
  rw [Bool.not_eq_true', decide_eq_false_iff_not, not_not]

/-- A record that `CheckExecutableTxns` has come by: only an executable one changes its phase. -/
structure Passed (d d' : TxChronos) : Prop extends Kept d d' where
  exe : d'.chrPhase = d.chrPhase ∨ phaseCanExe ≤ d.chrPhase.rank

theorem Passed.refl (d : TxChronos) : Passed d d := ⟨Kept.refl d, .inl rfl⟩

theorem Passed.canExe {d' : TxChronos} (h : Passed d d') (hd' : phaseCanExe ≤ d'.chrPhase.rank) :
    phaseCanExe ≤ d.chrPhase.rank :=
  h.exe.elim (fun heq => heq ▸ hd') id

theorem Passed.trans {d' d'' : TxChronos} (h : Passed d d') (h' : Passed d' d'') : Passed d d'' :=
  ⟨h.toKept.trans h'.toKept, h'.exe.elim (fun heq => h.exe.imp_left heq.trans)
    fun hexe => .inr (h.canExe hexe)⟩

/-- Since `s`, `CheckExecutableTxns` has run callbacks only. -/
structure Since (s t : Sched) : Prop where
  maxTs : t.irSiteMaxTs = s.irSiteMaxTs
  kept : Dict.Rel (fun _ => Passed) s.dtxns t.dtxns

theorem Since.refl (s : Sched) : Since s s :=
  ⟨rfl, rel_refl (R := fun _ => Passed) (fun _ => Passed.refl) s.dtxns⟩

theorem Only.rel {d' : TxChronos} (h : Only id d' s s') (hd : s.dtxns.find id = some d)
    (hk : Passed d d') : Dict.Rel (fun _ => Passed) s.dtxns s'.dtxns := fun x => by
  rw [h.find]
  split
  · next hx =>
    rw [hx, hd]
    exact .some hk
  · exact rel_refl (R := fun _ => Passed) (fun _ => Passed.refl) s.dtxns x

theorem Visited.since {k : ChrTs} {l l' : Loop} (hl : Since s l.sched)
    (hd : l.sched.dtxns.find id = some d) (hexe : phaseCanExe ≤ d.chrPhase.rank)
    (h : Visited site k id d l l') : Since s l'.sched := by
  cases h with
  | skip sched pending => exact sched ▸ hl
  | call d' removed called ready =>
    obtain ⟨fin, t, hex, -, hdtxns⟩ := called.executed
    refine ⟨called.maxTs.trans hl.maxTs,
      hl.kept.trans (hdtxns ▸ hex.only.rel hd ⟨hex.kept, .inr hexe⟩) ?_⟩
    exact fun _ _ _ _ => Passed.trans

/-- `CheckExecutableTxns`, called in `s`, comes past `done` to the transaction at `k`. -/
structure Visit (site : Site) (s : Sched) (done : List (ChrTs × ℕ)) (k : ChrTs) (id : ℕ)
    (d : TxChronos) (l l' : Loop) : Prop where
  entries : ∃ rest, s.readyTxns.entries = done ++ (k, id) :: rest
  since : Since s l.sched
  find : l.sched.dtxns.find id = some d
  passes : l.sched.stops d = false
  visited : Visited site k id d l l'

section Visit

variable {done : List (ChrTs × ℕ)} {k : ChrTs} {l l' : Loop}

theorem Visit.mem (h : Visit site s done k id d l l') : (k, id) ∈ s.readyTxns.entries := by
  obtain ⟨rest, he⟩ := h.entries
  exact he ▸ mem_append_right _ mem_cons_self

theorem Visit.before (h : Visit site s done k id d l l') {e : ChrTs × ℕ} (he : e ∈ done) :
    e ∈ s.readyTxns.entries ∧ e.1 < k := by
  obtain ⟨rest, hentries⟩ := h.entries
  have hsorted := s.readyTxns.sorted
  rw [hentries, pairwise_append] at hsorted
  exact ⟨hentries ▸ mem_append_left _ he, hsorted.2.2 e he (k, id) mem_cons_self⟩

theorem Visit.first (h : Visit site s done k id d l l') : ∃ d0, s.dtxns.find id = some d0 ∧
    Passed d0 d ∧ s.stops d0 = false := by
  obtain ⟨d0, hd0, hpassed⟩ := h.since.kept.find_rev h.find
  obtain ⟨hguard, hexe⟩ := stops_eq_false.mp h.passes
  rw [h.since.maxTs, hpassed.commitTs] at hguard
  exact ⟨d0, hd0, hpassed, stops_eq_false.mpr ⟨hguard, hpassed.canExe hexe⟩⟩

end Visit

theorem check_inv {J : List (ChrTs × ℕ) → Loop → Prop} (hs : J [] { sched := s })
    (hvisit : ∀ done k id d l l', Visit site s done k id d l l' → J done l →
      J (done ++ [(k, id)]) l') (h : s.check site = some s') :
    ∃ done l, J done l ∧ Since s l.sched ∧ s' = l.sched.setNewInput false := by
  obtain ⟨t, ht, rfl⟩ := map_eq_some_iff.mp h
  obtain ⟨done, l, ⟨hl, hsince⟩, rfl⟩ := walk_inv
    (J := fun done l => J done l ∧ Since s l.sched)
    (fun done k id rest d l l' he hl hd hstop hv =>
      ⟨hvisit done k id d l l' ⟨⟨rest, he⟩, hl.2, hd, hstop, visit_visited hd hv⟩ hl.1,
        (visit_visited hd hv).since hl.2 hd (stops_eq_false.mp hstop).2⟩)
    rfl ⟨hs, Since.refl s⟩ ht
  exact ⟨done, l, hl, hsince, rfl⟩

end Sched

end Fiss.Chronos
