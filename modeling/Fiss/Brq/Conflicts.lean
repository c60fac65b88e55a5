import Fiss.Brq.Once

/-! Conflicting transactions are ordered at a server. `TraceDep` remembers only the last transaction
    at a cell, so of the transactions that have traced a cell each is a parent of the next one, and
    the earlier ones are ancestors through this chain. A call of `OnPreAcceptWoGraph` runs handlers
    of its own transaction only, so it notes no other and leaves every cell it accesses noted
    (`Traces`), and it takes no parent away from any (`Adds`). -/

namespace Fiss.Brq
open Fiss.Rcc Relation List Option Prod Dict

/-! ### What a handler traces -/

/-- The handlers of `id` led from `a` to `a'`: parents were added only, where a cell was noted for
    `id` the transaction noted there before became a parent, and the cells accessed are noted. -/
structure Traces (id : ℕ) (a a' : Acc) : Prop where
  parents : ∀ p ∈ a.parents, p ∈ a'.parents
  cells : ∀ x, a'.store.last.find x = a.store.last.find x ∨ a'.store.last.find x = some id ∧
    ∀ u, a.store.last.find x = some u → u = id ∨ u ∈ a'.parents
  noted : ∃ new, a'.store.traced = a.store.traced ++ new ∧
    ∀ x, (id, x) ∈ new → a'.store.last.find x = some id

section Handler

variable {id : ℕ} {a a' a'' : Acc} {me : Runner}

theorem traces_of_last (hlast : a'.store.last = a.store.last) (hparents : a'.parents = a.parents)
    (htraced : a'.store.traced = a.store.traced) : Traces id a a' :=
  ⟨fun p hp => hparents ▸ hp, fun x => .inl (by rw [hlast]), [], by simp [htraced], by simp⟩

theorem Traces.kept (h : Traces id a a') {x : ℕ × ℕ} (hx : a.store.last.find x = some id) :
    a'.store.last.find x = some id :=
  (h.cells x).elim (fun hsame => hsame.trans hx) fun hid => hid.1

theorem Traces.trans (h : Traces id a a') (h' : Traces id a' a'') : Traces id a a'' where
  parents p hp := h'.parents p (h.parents p hp)
  cells x := by
    rcases h'.cells x with hsame' | ⟨hid, hprev⟩
    · rcases h.cells x with hsame | ⟨hid, hprev⟩
      · exact .inl (hsame'.trans hsame)
      · exact .inr ⟨hsame'.trans hid, fun u hu => (hprev u hu).imp_right (h'.parents u)⟩
    · refine .inr ⟨hid, fun u hu => ?_⟩
      rcases h.cells x with hsame | ⟨-, hprev'⟩
      · exact hprev u (hsame.trans hu)
      · exact (hprev' u hu).imp_right (h'.parents u)
  noted := by
    obtain ⟨new, hnew, hid⟩ := h.noted
    obtain ⟨new', hnew', hid'⟩ := h'.noted
    refine ⟨new ++ new', by rw [hnew', hnew, append_assoc], fun x hx => ?_⟩
    rcases mem_append.mp hx with hx | hx
    · exact h'.kept (hid x hx)
    · exact hid' x hx

theorem Traces.accessed (h : Traces id a a') {x : ℕ × ℕ}
    (hx : (id, x) ∈ a'.store.traced.drop a.store.traced.length) :
    a'.store.last.find x = some id := by
  obtain ⟨new, hnew, hid⟩ := h.noted
  rw [hnew, drop_left] at hx
  exact hid x hx

theorem traceDep_traces (row col : ℕ) : Traces me.id a (me.traceDep row col a) := by
  rw [Runner.traceDep]
  split
  · exact traces_of_last rfl rfl rfl
  · next hother =>
    refine ⟨fun p hp => ?_, fun x => ?_, [], (append_nil _).symm, by simp⟩
    · cases a.store.last.find (row, col) with
      | none => exact hp
      | some u => exact OrdSet.mem_insert.mpr (.inr hp)
    · rcases eq_or_ne x (row, col) with rfl | hx
      · refine .inr ⟨find_set_self .., fun u hu => .inr ?_⟩
        simp only [hu, elim_some]
        exact OrdSet.mem_insert.mpr (.inl rfl)
      · exact .inl (find_set_ne _ hx _)

theorem move_traces (h : me.Move a a') : Traces me.id a a' := by
  cases h with
  | trace row col _ _ => exact traceDep_traces row col
  | ship row col v _ =>
    rw [Runner.shipUpdate]
    split <;> exact traces_of_last rfl rfl rfl
  | write row col v _ | insert table cols _ => exact traces_of_last rfl rfl rfl

theorem exec_traces {p : Prog} {out : Dict ℕ Value} (h : me.exec p a = some (out, a')) :
    Traces me.id a a' := by
  replace h := Runner.exec_moves h
  induction h with
  | refl => exact traces_of_last rfl rfl rfl
  | tail _ hm ih => exact ih.trans (move_traces hm)

theorem traceDep_noted (row col : ℕ) :
    (me.traceDep row col a).store.last.find (row, col) = some me.id := by
  rw [Runner.traceDep]
  split
  · next h => exact h
  · exact find_set_self ..

theorem readColumn_noted {row col : ℕ} {hint : Hint} {r : Option Value × Acc}
    (h : me.readColumn row col hint a = some r) (hph : me.phase = .dispatch)
    (hhint : hint ≠ .bypass) : r.2.store.last.find (row, col) = some me.id := by
  obtain ⟨v, -, h⟩ := bind_eq_some_iff.mp h
  simp only [hph, if_neg hhint] at h
  rw [← some.inj h]
  exact traceDep_noted row col

theorem writeColumn_noted {row col : ℕ} {v : Value} {hint : Hint}
    (h : me.writeColumn row col v hint a = some a') (hph : me.phase = .dispatch) :
    a'.store.last.find (row, col) = some me.id := by
  obtain ⟨u, -, h⟩ := bind_eq_some_iff.mp h
  simp only [hph] at h
  rw [← some.inj h]
  split
  · next hhint => rw [if_neg (by simp [hhint])]; exact traceDep_noted row col
  · exact traceDep_noted row col

/-- A handler leaves every cell it accesses noted for its transaction. -/
theorem exec_noted {out : Dict ℕ Value} {x : ℕ × ℕ} : ∀ {p : Prog} {a : Acc},
    me.exec p a = some (out, a') → x ∈ me.traced p a → a'.store.last.find x = some me.id := by
  intro p
  induction p with
  | done o => intro a _ hx; cases hx
  | read row col hint k ih =>
    intro a h hx
    obtain ⟨r, hr, h⟩ := bind_eq_some_iff.mp h
    rw [Runner.traced, hr, elim_some, mem_append, mem_ite_nil_right, mem_singleton] at hx
    rcases hx with ⟨⟨hph, hhint⟩, rfl⟩ | hx
    · exact (exec_traces h).kept (readColumn_noted hr hph hhint)
    · exact ih r.1 h hx
  | write row col v hint k ih =>
    intro a h hx
    obtain ⟨b, hb, h⟩ := bind_eq_some_iff.mp h
    rw [Runner.traced, hb, elim_some, mem_append, mem_ite_nil_right, mem_singleton] at hx
    rcases hx with ⟨hph, rfl⟩ | hx
    · exact (exec_traces h).kept (writeColumn_noted hb hph)
    · exact ih h hx
  | insert table cols k ih => intro a h hx; exact ih h hx

end Handler

/-! ### What a dispatch traces -/

section Dispatch

variable {site : Site} {id i : ℕ} {c : SimpleCommand} {out : Dict ℕ Value} {w w' : Work}
  {st st' : Pass} {cmds : List SimpleCommand}

theorem runHandler_traces (h : w.runHandler site id i c = some (out, w')) :
    Traces id w.acc w'.acc := by
  obtain ⟨r, hr, heq⟩ := map_eq_some_iff.mp h
  obtain ⟨rfl, rfl⟩ := mk.inj heq
  refine (exec_traces hr).trans ⟨fun _ hp => hp, fun _ => .inl rfl, _, rfl, fun x hx => ?_⟩
  obtain ⟨y, hy, heq⟩ := mem_map.mp hx
  have hnoted := exec_noted hr hy
  rw [← (mk.inj heq).2]
  exact hnoted

theorem piece_traces (h : st.piece site id i = some st') :
    Traces id st.work.acc st'.work.acc := by
  rcases piece_cases h with ⟨rfl, -⟩ | ⟨c, out, w, -, -, hexec, rfl⟩
  · exact traces_of_last rfl rfl rfl
  · rcases execSimpleCmd_cases hexec with ⟨-, -, rfl⟩ | ⟨-, hrun⟩
    · exact traces_of_last rfl rfl rfl
    · exact (runHandler_traces hrun).trans (traces_of_last rfl rfl rfl)

theorem checkPiece_traces (h : w.checkPiece site id i = some w') : Traces id w.acc w'.acc := by
  rcases checkPiece_cases h with ⟨rfl, -⟩ | ⟨c, out, -, -, -, hrun⟩
  · exact traces_of_last rfl rfl rfl
  · exact runHandler_traces hrun

theorem dispatchExec_traces (h : w.dispatchExec site id = some w') :
    Traces id w.acc w'.acc := by
  obtain ⟨st, hst, h⟩ := bind_eq_some_iff.mp h
  have hfirst : Traces id w.acc st.work.acc := by
    refine recursive_inv (I := fun u => Traces id w.acc u.acc)
      (fun _ _ _ hu hp => hu.trans (piece_traces hp)) ?_ hst
    exact traces_of_last rfl rfl rfl
  exact run_inv (P := fun u : Work => Traces id w.acc u.acc)
    (fun _ _ _ hu hp => hu.trans (checkPiece_traces hp)) hfirst h

theorem takePieces_traces (h : takePieces site id cmds w = some w') :
    Traces id w.acc w'.acc := by
  rcases takePieces_cases h with ⟨-, hexec⟩ | ⟨-, -, rfl⟩ | rfl
  · refine .trans ?_ (dispatchExec_traces hexec)
    exact traces_of_last rfl rfl rfl
  · exact traces_of_last rfl rfl rfl
  · exact traces_of_last rfl rfl rfl

end Dispatch

/-! ### What a pre-accept adds to the graph -/

/-- No transaction is lost, and none loses a parent. -/
def Adds (g g' : Dtxns) : Prop :=
  ∀ v d, g.find v = some d → ∃ d', g'.find v = some d' ∧ ∀ p ∈ d.parents, p ∈ d'.parents

section Graph

variable {g g' g'' : Dtxns} {v p t : ℕ} {d : RccDTxn}

theorem Adds.trans (h : Adds g g') (h' : Adds g' g'') : Adds g g'' := fun v d hd => by
  obtain ⟨d1, hd1, hp1⟩ := h v d hd
  obtain ⟨d2, hd2, hp2⟩ := h' v d1 hd1
  exact ⟨d2, hd2, fun p hp => hp2 p (hp1 p hp)⟩

theorem Adds.isSome (h : Adds g g') (hv : (g.find v).isSome) : (g'.find v).isSome := by
  obtain ⟨d, hd⟩ := isSome_iff_exists.mp hv
  obtain ⟨d', hd', -⟩ := h v d hd
  rw [hd', isSome_some]

theorem Adds.above (h : Adds g g') (hvp : Above g v p) : Above g' v p := by
  refine ReflTransGen.mono (fun a b hab => ?_) _ _ hvp
  obtain ⟨⟨d, hd, hb⟩, hsome⟩ := mem_parentsIn.mp hab
  obtain ⟨d', hd', hp'⟩ := h a d hd
  exact mem_parentsIn.mpr ⟨⟨d', hd', hp' b hb⟩, h.isSome hsome⟩

theorem adds_set (h : ∀ d', g.find t = some d' → ∀ p ∈ d'.parents, p ∈ d.parents) :
    Adds g (g.set t d) := fun v d' hd' => by
  rcases eq_or_ne v t with rfl | hv
  · exact ⟨d, find_set_self .., h d' hd'⟩
  · exact ⟨d', by rw [find_set_ne _ hv, hd'], fun p hp => hp⟩

theorem adds_of_rel {R : ℕ → RccDTxn → RccDTxn → Prop} (h : Dict.Rel R g g')
    (hR : ∀ x d d', R x d d' → d'.parents = d.parents) : Adds g g' := fun v d hd => by
  obtain ⟨d', hd', hdd⟩ := h.find hd
  exact ⟨d', hd', fun p hp => (hR v d d' hdd).symm ▸ hp⟩

end Graph

/-- The handlers that ran for `t` between `s` and `s'` accessed the cell `x`. -/
def Accessed (t : ℕ) (x : ℕ × ℕ) (s s' : Server) : Prop :=
  (t, x) ∈ s'.store.traced.drop s.store.traced.length

/-- One pre-accept of `t`: the graph grows, and the record of `t` has the parents its handlers
    traced. -/
structure Conflicts (t : ℕ) (s s' : Server) : Prop where
  adds : Adds s.dtxns s'.dtxns
  record : ∃ d parents, s'.dtxns.find t = some d ∧ Traces t ⟨s.store, parents⟩ ⟨s'.store, d.parents⟩

section Runs

variable {site : Site} {s s' : Server} {t : ℕ} {x : ℕ × ℕ}

theorem preAccepted_parents (rootType : ℕ) :
    (preAccepted site t rootType s).parents = (recordOf t s).parents := by
  unfold preAccepted RccDTxn.updateStatus
  split <;> rfl

theorem adds_put {d : RccDTxn} (h : ∀ p ∈ (recordOf t s).parents, p ∈ d.parents) :
    Adds s.dtxns (s.dtxns.set t d) := by
  refine adds_set fun d' hd' p hp => h p ?_
  rw [recordOf, hd']
  exact hp

theorem preAccept_conflicts {cmds : List SimpleCommand}
    (hx : step site s (.preAccept t cmds) = some s') : Conflicts t s s' := by
  obtain ⟨r, hr, rfl⟩ := map_eq_some_iff.mp hx
  obtain ⟨first, -, ⟨-, rfl⟩ | ⟨w, report, hw, hreport, hdtxns, hstore⟩⟩ :=
    onPreAcceptWoGraph_cases hr
  · refine ⟨adds_put fun p hp => ?_, _, _, find_set_self .., traces_of_last rfl rfl rfl⟩
    rw [preAccepted_parents]
    exact hp
  · have htr := takePieces_traces hw
    have hset : Adds s.dtxns (s.dtxns.set t (setFullyDispatched w.dtxn)) :=
      adds_put fun p hp => htr.parents p (by rw [Work.acc, preAccepted_parents]; exact hp)
    have hbits : Adds (s.dtxns.set t (setFullyDispatched w.dtxn)) report.dtxns :=
      adds_of_rel (minItfrGraph_bits hreport) fun _ _ _ hd => by
        obtain ⟨bits, rfl⟩ := hd
        rfl
    obtain ⟨d', hd', hparents⟩ := hbits t _ (find_set_self ..)
    rw [← hdtxns] at hd' hbits
    refine ⟨hset.trans hbits, d', (preAccepted site t first.rootType s).parents, hd', ?_⟩
    rw [hstore]
    exact htr.trans ⟨hparents, fun _ => .inl rfl, [], (append_nil _).symm, by simp⟩

theorem Conflicts.noted (h : Conflicts t s s') (hx : Accessed t x s s') :
    s'.store.last.find x = some t := by
  obtain ⟨d, parents, -, htr⟩ := h.record
  exact htr.accessed hx

theorem Conflicts.known (h : Conflicts t s s') : (s'.dtxns.find t).isSome := by
  obtain ⟨d, parents, hd, -⟩ := h.record
  rw [hd, isSome_some]

/-- Calls of `OnPreAcceptWoGraph`, one after the other. -/
def preAccepts (site : Site) : Server → List (ℕ × List SimpleCommand) → Option Server :=
  run fun s c => step site s (.preAccept c.1 c.2)

/-- The last to trace `x` is one of `seen`, and `t` is above it. -/
def Leads (t : ℕ) (x : ℕ × ℕ) (seen : List ℕ) (s : Server) : Prop :=
  ∃ u ∈ seen, s.store.last.find x = some u ∧ (s.dtxns.find u).isSome ∧ Above s.dtxns u t

theorem Conflicts.above {seen : List ℕ} {v : ℕ} (h : Conflicts v s s') (hlead : Leads t x seen s)
    (hv : v ∉ seen) (hnoted : s'.store.last.find x = some v) : Above s'.dtxns v t := by
  obtain ⟨u, hu, hlast, hsome, habove⟩ := hlead
  have huv : u ≠ v := fun heq => hv (heq ▸ hu)
  obtain ⟨d, parents, hd, htr⟩ := h.record
  rcases htr.cells x with hsame | ⟨-, hprev⟩
  · exact absurd (some.inj ((hlast.symm.trans hsame.symm).trans hnoted)) huv
  · have hp := (hprev u hlast).resolve_left huv
    exact (h.adds.above habove).head (mem_parentsIn.mpr ⟨⟨d, hd, hp⟩, h.adds.isSome hsome⟩)

theorem Conflicts.leads {seen : List ℕ} {v : ℕ} (h : Conflicts v s s') (hlead : Leads t x seen s)
    (hv : v ∉ seen) : Leads t x (v :: seen) s' := by
  obtain ⟨d, parents, -, htr⟩ := h.record
  rcases htr.cells x with hsame | ⟨hnoted, -⟩
  · obtain ⟨u, hu, hlast, hsome, habove⟩ := hlead
    exact ⟨u, mem_cons_of_mem v hu, hsame.trans hlast, h.adds.isSome hsome,
      h.adds.above habove⟩
  · exact ⟨v, mem_cons_self, hnoted, h.known, h.above hlead hv hnoted⟩

theorem preAccepts_adds {calls : List (ℕ × List SimpleCommand)}
    (h : preAccepts site s calls = some s') : Adds s.dtxns s'.dtxns :=
  run_inv (P := fun u : Server => Adds s.dtxns u.dtxns)
    (fun _ _ _ hu hstep => hu.trans (preAccept_conflicts hstep).adds)
    (fun _ d hd => ⟨d, hd, fun _ hp => hp⟩) h

theorem preAccepts_leads : ∀ {calls : List (ℕ × List SimpleCommand)} {seen : List ℕ} {s : Server},
    preAccepts site s calls = some s' → (calls.map fst ++ seen).Nodup → Leads t x seen s →
    ∃ seen', Leads t x seen' s' ∧ ∀ v, v ∈ seen' → v ∈ calls.map fst ∨ v ∈ seen
  | [], seen, s, h, _, hlead => ⟨seen, some.inj h ▸ hlead, fun _ hv => .inr hv⟩
  | c :: calls, seen, s, h, hnd, hlead => by
    obtain ⟨s1, h1, h⟩ := run_cons.mp h
    have hperm : (calls.map fst ++ c.1 :: seen).Nodup :=
      (perm_middle.nodup_iff).mpr hnd
    have hc : c.1 ∉ seen := fun hmem =>
      (nodup_cons.mp hnd).1 (mem_append_right _ hmem)
    obtain ⟨seen', hlead', hsub⟩ :=
      preAccepts_leads h hperm ((preAccept_conflicts h1).leads hlead hc)
    refine ⟨seen', hlead', fun v hv => ?_⟩
    rcases hsub v hv with hv | hv
    · exact .inl (mem_cons_of_mem _ hv)
    · rcases mem_cons.mp hv with rfl | hv
      · exact .inl mem_cons_self
      · exact .inr hv

/-- Of two transactions whose handlers both access a cell, the one pre-accepted first is an ancestor of
    the other one, in whatever state the server is when the calls begin. -/
theorem earlier_tracer_above {s1 s2 s3 : Server} (c c' : ℕ × List SimpleCommand)
    (between after : List (ℕ × List SimpleCommand))
    (hdistinct : ((c :: (between ++ c' :: after)).map fst).Nodup)
    (h1 : step site s (.preAccept c.1 c.2) = some s1)
    (hx1 : Accessed c.1 x s s1) (h2 : preAccepts site s1 between = some s2)
    (h3 : step site s2 (.preAccept c'.1 c'.2) = some s3) (hx3 : Accessed c'.1 x s2 s3)
    (h' : preAccepts site s3 after = some s') : c.1 ≠ c'.1 ∧ Above s'.dtxns c'.1 c.1 := by
  have hc := preAccept_conflicts h1
  have hc' := preAccept_conflicts h3
  have hnd : (c.1 :: (between.map fst ++ c'.1 :: after.map fst)).Nodup := by
    rwa [map_cons, map_append, map_cons] at hdistinct
  obtain ⟨hfirst, hnd⟩ := nodup_cons.mp hnd
  have hne : c.1 ≠ c'.1 := fun heq => hfirst (heq ▸ mem_append_right _ mem_cons_self)
  have hlead : Leads c.1 x [c.1] s1 := ⟨c.1, mem_cons_self, hc.noted hx1, hc.known, .refl⟩
  have hnd' : (between.map fst ++ [c.1]).Nodup :=
    List.Nodup.append (nodup_append.mp hnd).1 (nodup_singleton c.1)
      fun v hv hv' => hfirst (mem_append_left _ (mem_singleton.mp hv' ▸ hv))
  obtain ⟨seen, hlead, hsub⟩ := preAccepts_leads h2 hnd' hlead
  have hnew : c'.1 ∉ seen := fun hmem => by
    rcases hsub c'.1 hmem with hv | hv
    · exact (nodup_append.mp hnd).2.2 _ hv _ mem_cons_self rfl
    · exact hne (mem_singleton.mp hv).symm
  exact ⟨hne, (preAccepts_adds h').above (hc'.above hlead hnew (hc'.noted hx3))⟩

instance decidableAccessed (t : ℕ) (x : ℕ × ℕ) (s s' : Server) : Decidable (Accessed t x s s') :=
  inferInstanceAs (Decidable (_ ∈ _))

/-- Three transactions write the cell; the first is an ancestor of the third through the second. -/
theorem earlier_tracer_above_third : ∃ s1 s2 s3,
    step writeSite (boot oneCell) (.preAccept 1 [writePiece]) = some s1 ∧
    preAccepts writeSite s1 [(2, [writePiece])] = some s2 ∧
    step writeSite s2 (.preAccept 3 [writePiece]) = some s3 ∧ 1 ≠ 3 ∧ Above s3.dtxns 3 1 := by
  have hnote1 : (step writeSite (boot oneCell) (.preAccept 1 [writePiece])).map (fun s =>
      decide (Accessed 1 (0, 0) (boot oneCell) s)) = some true := by decide
  have hrest : ((step writeSite (boot oneCell) (.preAccept 1 [writePiece])).bind fun s =>
      (preAccepts writeSite s [(2, [writePiece])]).bind fun s =>
        (step writeSite s (.preAccept 3 [writePiece])).map fun s' =>
          decide (Accessed 3 (0, 0) s s')) = some true := by decide
  obtain ⟨s1, h1, hx1⟩ := map_eq_some_iff.mp hnote1
  rw [h1, bind_some] at hrest
  obtain ⟨s2, h2, hrest⟩ := bind_eq_some_iff.mp hrest
  obtain ⟨s3, h3, hx3⟩ := map_eq_some_iff.mp hrest
  exact ⟨s1, s2, s3, h1, h2, h3, earlier_tracer_above (1, [writePiece])
    (3, [writePiece]) [(2, [writePiece])] [] (by decide) h1
    (of_decide_eq_true hx1) h2 h3 (of_decide_eq_true hx3) rfl⟩

end Runs

end Fiss.Brq
