import Fiss.Rcc.Sched

/-! Which ancestors have been executed when the scheduler executes a component. The guard lets a
    component through when every ancestor it walks over is decided, so an ancestor that is decided
    and has not been executed does not hold it up. -/

namespace Fiss.Rcc
open Relation Option Dict RccDTxn ReflTransGen Server

/-- The transaction involves this partition and is not aborted. -/
def RccDTxn.live (d : RccDTxn) : Prop := d.involveFlag = .involved ∧ d.isAborted = false

/-! ### Records that go on -/

/-- `d'` is a later state of `d`, with the same parents. -/
structure Later (d d' : RccDTxn) : Prop where
  parents : d'.parents = d.parents
  flag : d.involveFlag ≠ .unknown → d'.involveFlag = d.involveFlag
  status : d.status ≤ d'.status
  aborted : d'.isAborted = d.isAborted
  executed : d.executed = true → d'.executed = true

/-- Every record has gone on. -/
def Since (g g' : Dtxns) : Prop := Dict.Rel (fun _ => Later) g g'

section Later

variable {N : Prop} {d d' : RccDTxn} {g g' : Dtxns}

theorem Kept.later (h : Kept N d d') : Later d d' :=
  ⟨h.parents, h.flag, h.status.ge, by rw [isAborted, h.status]; rfl, h.executed⟩

theorem later_setScc (d : RccDTxn) (scc : List ℕ) : Later d (d.setScc scc) :=
  ⟨rfl, fun _ => rfl, le_rfl, rfl, fun h => h⟩

theorem later_unionStatus (d : RccDTxn) : Later d (d.unionStatus txnDcd) where
  parents := rfl
  flag _ := rfl
  status := Nat.left_le_or
  aborted := by
    -- the decided bit is not the aborted one
    have hand : (d.status ||| txnDcd) &&& txnAbt = d.status &&& txnAbt := by
      rw [Nat.and_or_distrib_right]
      exact Nat.or_zero _
    simp only [isAborted, unionStatus, hand]
  executed h := h

theorem Later.refl (d : RccDTxn) : Later d d := ⟨rfl, fun _ => rfl, le_rfl, rfl, fun h => h⟩

theorem Later.live_iff (h : Later d d') (hflag : d.involveFlag ≠ .unknown) : d'.live ↔ d.live := by
  rw [live, live, h.flag hflag, h.aborted]

theorem Since.above_eq (h : Since g g') : Above g' = Above g :=
  (sameGraph_of_rel h fun _ _ _ hd => hd.parents).above_eq

theorem since_of_kept {N : ℕ → Prop} (h : Dict.Rel (fun x => Kept (N x)) g g') : Since g g' :=
  h.mono fun _ _ _ hd => hd.later

theorem since_decideScc (scc : List ℕ) (g : Dtxns) : Since g (decideScc scc g) :=
  (decideScc_rel scc g).mono fun _ d _ hd => by
    rcases hd with rfl | ⟨-, rfl⟩
    · exact Later.refl _
    · exact later_unionStatus d

end Later

/-! ### What is known of the records -/

/-- Every flag is settled, and no live ancestor of a foreign transaction is left to execute. -/
structure Settled (g : Dtxns) : Prop where
  known : ∀ x d, g.find x = some d → d.involveFlag ≠ .unknown
  foreign : ∀ f d y e, g.find f = some d → d.involveFlag = .foreign → Above g f y →
    g.find y = some e → e.live → e.executed = true

/-- Behind what is executed, everything live is executed or decided. -/
def Closure (g : Dtxns) : Prop :=
  ∀ x d y e, g.find x = some d → d.executed = true → Above g x y → g.find y = some e → e.live →
    e.executed = true ∨ txnDcd ≤ e.status

/-- The components that are known are the components of the graph. -/
structure CacheRight (g : Dtxns) : Prop where
  closed : CacheClosed g
  right : ∀ w d scc, g.find w = some d → d.scc = some scc →
    ∀ x, x ∈ scc ↔ Above g w x ∧ Above g x w

/-- What holds between two looks. -/
structure Sound (g : Dtxns) : Prop where
  closure : Closure g
  cache : CacheRight g

section Known

variable {g g' : Dtxns}

theorem Settled.since (h : Settled g) (hg : Since g g') : Settled g' where
  known x d' hd' := by
    obtain ⟨d, hd, hdd⟩ := hg.find_rev hd'
    rw [hdd.flag (h.known x d hd)]
    exact h.known x d hd
  foreign f d' y e' hd' hflag hfy he' hlive := by
    obtain ⟨d, hd, hdd⟩ := hg.find_rev hd'
    obtain ⟨e, he, hee⟩ := hg.find_rev he'
    rw [hdd.flag (h.known f d hd)] at hflag
    rw [hg.above_eq] at hfy
    exact hee.executed (h.foreign f d y e hd hflag hfy he ((hee.live_iff (h.known y e he)).mp hlive))

theorem Closure.since (h : Closure g) (hs : Settled g) (hg : Since g g')
    (hnew : ∀ x d d', g.find x = some d → g'.find x = some d' → d'.executed = true →
      d.executed = true ∨ ∀ y e, Above g x y → g.find y = some e → e.live →
        e.executed = true ∨ txnDcd ≤ e.status) : Closure g' := by
  intro x d' y e' hd' hex hxy he' hlive
  obtain ⟨d, hd, -⟩ := hg.find_rev hd'
  obtain ⟨e, he, hee⟩ := hg.find_rev he'
  rw [hg.above_eq] at hxy
  rw [hee.live_iff (hs.known y e he)] at hlive
  have hold : e.executed = true ∨ txnDcd ≤ e.status := by
    rcases hnew x d d' hd hd' hex with hd0 | hbehind
    · exact h x d y e hd hd0 hxy he hlive
    · exact hbehind y e hxy he hlive
  exact hold.imp hee.executed fun hs => hs.trans hee.status

theorem hasScc_congr (h : ∀ x, (g.find x).map (fun d => d.scc) = (g'.find x).map fun d => d.scc)
    (x : ℕ) : hasScc g' x = hasScc g x := by
  have hx := h x
  unfold hasScc
  revert hx
  cases g.find x <;> cases g'.find x <;> intro hx
  · rfl
  · cases hx
  · cases hx
  · exact (congrArg isSome (some.inj hx)).symm

theorem CacheRight.congr (h : CacheRight g) {R : ℕ → RccDTxn → RccDTxn → Prop}
    (hg : Dict.Rel R g g') (hR : ∀ x d d', R x d d' → d'.parents = d.parents ∧ d'.scc = d.scc) :
    CacheRight g' := by
  have habove := (sameGraph_of_rel hg fun x d d' hd => (hR x d d' hd).1).above_eq
  have hscc : ∀ x, (g.find x).map (fun d => d.scc) = (g'.find x).map fun d => d.scc := fun x =>
    match g.find x, g'.find x, hg x with
    | _, _, .none => rfl
    | _, _, .some hd => congrArg some (hR x _ _ hd).2.symm
  refine ⟨fun w x hw hwx hxw => ?_, fun w d' scc hd' hs x => ?_⟩
  · rw [hasScc_congr hscc] at hw ⊢
    rw [habove] at hwx hxw
    exact h.closed w x hw hwx hxw
  · obtain ⟨d, hd, hdd⟩ := hg.find_rev hd'
    rw [habove]
    exact h.right w d scc hd ((hR w d d' hdd).2.symm.trans hs) x

theorem above_mutual {v w x : ℕ} (hvw : Above g v w ∧ Above g w v) :
    Above g v x ∧ Above g x v ↔ Above g w x ∧ Above g x w :=
  ⟨fun h => ⟨hvw.2.trans h.1, h.2.trans hvw.1⟩, fun h => ⟨hvw.1.trans h.1, h.2.trans hvw.2⟩⟩

/-- The component that is found is the component of the graph, and what is noted is right. -/
theorem findSccPred_right {v : ℕ} {scc : List ℕ} (h : CacheRight g)
    (hf : findSccPred g v = some (scc, g')) :
    (∀ x, x ∈ scc ↔ Above g v x ∧ Above g x v) ∧ CacheRight g' := by
  have habove := (sameGraph_of_rel (findSccPred_rel hf) fun x d d' hd => by
    rcases hd with rfl | rfl <;> rfl).above_eq
  obtain ⟨d, hd, hf'⟩ := bind_eq_some_iff.mp hf
  cases hscc : d.scc with
  | some c =>
    rw [hscc] at hf'
    obtain ⟨rfl, rfl⟩ := Prod.mk.inj (some.inj hf')
    exact ⟨h.right v d c hd hscc, h⟩
  | none =>
    have hno : hasScc g v = false := by rw [hasScc, hd, any_some, hscc]; rfl
    obtain ⟨g'', hg'', hfind⟩ := findSccPred_eq hd hscc
    rw [hf] at hg''
    obtain ⟨rfl, rfl⟩ := Prod.mk.inj (some.inj hg'')
    have hmem : ∀ x, x ∈ strongConnectPred g v ↔ Above g v x ∧ Above g x v := fun x =>
      mem_strongConnectPred h.closed hd hno
    refine ⟨hmem, fun w x hw hwx hxw => ?_, fun w d' c hd' hc x => ?_⟩
    · rw [habove] at hwx hxw
      rw [hasScc, hfind x]
      by_cases hx : x ∈ strongConnectPred g v
      · obtain ⟨e, he⟩ : ∃ e, g.find x = some e := by
          rcases cases_tail ((hmem x).mp hx).1 with rfl | ⟨b, -, hbx⟩
          · exact ⟨d, hd⟩
          · exact isSome_iff_exists.mp (mem_parentsIn.mp hbx).2
        rw [he, map_some, if_pos hx]
        rfl
      · -- `x` shares its component with `w`, so `w` was not noted now
        have hw' : w ∉ strongConnectPred g v := fun hw' =>
          hx ((hmem x).mpr ((above_mutual ((hmem w).mp hw')).mpr ⟨hwx, hxw⟩))
        rw [hasScc, hfind w] at hw
        simp only [hw', if_false, map_id'] at hw
        have hx' := h.closed w x hw hwx hxw
        simp only [hx, if_false, map_id']
        exact hx'
    · rw [habove]
      rw [hfind w] at hd'
      obtain ⟨e, he, rfl⟩ := map_eq_some_iff.mp hd'
      by_cases hw : w ∈ strongConnectPred g v
      · rw [if_pos hw] at hc
        rw [← some.inj hc, hmem x]
        exact above_mutual ((hmem w).mp hw)
      · rw [if_neg hw] at hc
        exact h.right w e c he hc x

end Known

/-! ### The guard -/

/-- Before a look at `v`: the flags are settled, and of the live ancestors of `v` beyond its
    component, those that are decided have been executed. -/
structure DecidedDone (g : Dtxns) (v : ℕ) : Prop where
  settled : Settled g
  decided : ∀ y e, Above g v y → ¬ Above g y v → g.find y = some e → e.live →
    txnDcd ≤ e.status → e.executed = true

section Guard

variable {now : ℕ → ℕ} {g g1 g2 : Dtxns} {v : ℕ} {scc : List ℕ} {fns : Bool × Dtxns}

/-- What the visitor of `AllAncFns` accepts and skips, told from the records `g` it started with. -/
theorem ancFns_judges {first p : ℕ} {g' : Dtxns} (hg : Looked (NotInvolved g) g g') :
    ((ancFns now scc first g' p).1 = .ok → ∃ d, g.find p = some d ∧ d.executed = false ∧
      (txnDcd ≤ d.status ∨ p ∈ scc)) ∧ ((ancFns now scc first g' p).1 = .skip → g.find p = none ∨
      ∃ d, g.find p = some d ∧ (d.executed = true ∨ d.involveFlag ≠ .involved)) := by
  cases hp : g'.find p with
  | none =>
    have hnone : g.find p = none := by
      cases hp' : g.find p with
      | none => rfl
      | some d =>
        obtain ⟨d', hd', -⟩ := hg.find hp'
        cases hp.symm.trans hd'
    simp only [ancFns, hp]
    exact ⟨fun h => (by cases h), fun _ => .inl hnone⟩
  | some d' =>
    obtain ⟨d, hd, hseen⟩ := hg.find_rev hp
    have hflag : d'.involveFlag ≠ .involved → d.involveFlag ≠ .involved := fun h hinv =>
      h (by rw [hseen.flag (by rw [hinv]; exact fun h => by cases h), hinv])
    simp only [ancFns, hp]
    by_cases hex : d'.executed = true
    · simp only [hex, if_true]
      refine ⟨fun h => (by cases h), fun _ => .inr ⟨d, hd, ?_⟩⟩
      rcases hseen.new hex with hex | ⟨d0, hd0, hflag⟩
      · exact .inl hex
      · rw [← some.inj (hd0.symm.trans hd)]
        exact .inr hflag
    · have hex0 : d.executed = false := by
        by_contra h
        exact hex (hseen.executed (eq_true_of_ne_false h))
      rw [if_neg hex]
      by_cases hinv : d'.involveFlag ≠ .involved
      · rw [if_pos hinv]
        split
        · exact ⟨fun h => (by cases h), fun _ => .inr ⟨d, hd, .inr (hflag hinv)⟩⟩
        · exact ⟨fun h => (by cases h), fun h => (by cases h)⟩
      · rw [if_neg hinv]
        split
        · next hdcd =>
          exact ⟨fun _ => ⟨d, hd, hex0, .inl (hseen.status ▸ hdcd)⟩, fun h => (by cases h)⟩
        · split
          · next hmem => exact ⟨fun _ => ⟨d, hd, hex0, .inr hmem⟩, fun h => (by cases h)⟩
          · exact ⟨fun h => (by cases h), fun h => (by cases h)⟩

/-- The records once the component `scc` of `v` has been found and decided, against those before
    the look. -/
structure Prepared (g : Dtxns) (v : ℕ) (scc : List ℕ) (g' : Dtxns) : Prop where
  since : Since g g'
  members : ∀ x, x ∈ scc ↔ Above g v x ∧ Above g x v
  present : ∀ u ∈ scc, (g'.find u).isSome
  cache : CacheRight g'
  decided : ∀ u ∈ scc, ∀ d, g'.find u = some d → txnDcd ≤ d.status
  beyond : ∀ y e, y ∉ scc → g'.find y = some e → ∃ e0, g.find y = some e0 ∧ e.status = e0.status
  executed : ∀ x d, g'.find x = some d → d.executed = true →
    ∃ d0, g.find x = some d0 ∧ d0.executed = true

theorem prepared (hs : CacheRight g) (h1 : Looked (fun _ => False) g g1)
    (hf : findSccPred g1 v = some (scc, g2)) : Prepared g v scc (decideScc scc g2) := by
  have hrel := findSccPred_rel hf
  have hsince1 : Since g g1 := Dict.Rel.mono h1 fun _ _ _ hd => hd.toKept.later
  have hcache1 : CacheRight g1 := hs.congr h1 fun _ _ _ hd => ⟨hd.parents, hd.scc⟩
  obtain ⟨hmem, hcache2⟩ := findSccPred_right hcache1 hf
  rw [hsince1.above_eq] at hmem
  have hsince2 : Since g1 g2 := hrel.mono fun _ d d' hd => by
    rcases hd with rfl | rfl
    · exact Later.refl _
    · exact later_setScc d scc
  -- the record before the look that a record of the decided ones comes from
  have hback : ∀ x d', (decideScc scc g2).find x = some d' → ∃ d0 d2, g.find x = some d0 ∧
      d2.status = d0.status ∧ (d2.executed = true → d0.executed = true) ∧
      d' = if x ∈ scc then d2.unionStatus txnDcd else d2 := by
    intro x d' hd'
    rw [find_decideScc] at hd'
    obtain ⟨d2, hd2, rfl⟩ := map_eq_some_iff.mp hd'
    obtain ⟨d1, hd1, hcase⟩ := hrel.find_rev hd2
    obtain ⟨d0, hd0, hseen⟩ := h1.find_rev hd1
    refine ⟨d0, d2, hd0, ?_, fun hex => ?_, rfl⟩
    · rcases hcase with rfl | rfl <;> exact hseen.status
    · have hex1 : d1.executed = true := by rcases hcase with rfl | rfl <;> exact hex
      exact (hseen.new hex1).elim id False.elim
  refine ⟨?_, hmem, fun u hu => ?_, ?_, fun u hu d hd => ?_, fun y e hy he => ?_,
    fun x d hd hex => ?_⟩
  · have htrans : ∀ a b c : RccDTxn, Later a b → Later b c → Later a c := fun a b c hab hbc =>
      ⟨hbc.parents.trans hab.parents,
        fun hne => (hbc.flag (hab.flag hne ▸ hne)).trans (hab.flag hne),
        hab.status.trans hbc.status, hbc.aborted.trans hab.aborted,
        fun h => hbc.executed (hab.executed h)⟩
    exact (hsince1.trans hsince2 fun _ => htrans).trans (since_decideScc scc g2) fun _ => htrans
  · have hin : (g.find u).isSome := by
      rcases cases_tail ((hmem u).mp hu).1 with rfl | ⟨b, -, hbu⟩
      · obtain ⟨d1, hd1, -⟩ := bind_eq_some_iff.mp hf
        obtain ⟨d0, hd0, -⟩ := h1.find_rev hd1
        rw [hd0]; rfl
      · exact (mem_parentsIn.mp hbu).2
    obtain ⟨d0, hd0⟩ := isSome_iff_exists.mp hin
    obtain ⟨d1, hd1, -⟩ := hsince1.find hd0
    obtain ⟨d2, hd2, -⟩ := hsince2.find hd1
    rw [find_decideScc, hd2]; rfl
  · refine hcache2.congr (decideScc_rel scc g2) fun _ _ _ hd => ?_
    rcases hd with rfl | ⟨-, rfl⟩ <;> exact ⟨rfl, rfl⟩
  · obtain ⟨d0, d2, -, -, -, rfl⟩ := hback u d hd
    rw [if_pos hu]
    exact Nat.right_le_or
  · obtain ⟨e0, e2, he0, hst, -, rfl⟩ := hback y e he
    rw [if_neg hy]
    exact ⟨e0, he0, hst⟩
  · obtain ⟨d0, d2, hd0, -, hex2, rfl⟩ := hback x d hd
    refine ⟨d0, hd0, hex2 ?_⟩
    split at hex <;> exact hex

theorem Prepared.closure {g' : Dtxns} (h : Prepared g v scc g') (hs : Closure g) (hset : Settled g) :
    Closure g' := by
  refine hs.since hset h.since fun x d d' hd hd' hex => .inl ?_
  obtain ⟨d0, hd0, hex0⟩ := h.executed x d' hd' hex
  rw [← some.inj (hd0.symm.trans hd)]
  exact hex0

/-- A component that `AllAncFns` lets through has no live ancestor beyond it left to execute. -/
theorem Prepared.ancestors_executed {g' : Dtxns} (h : Prepared g v scc g') (hs : Closure g)
    (hc : DecidedDone g v) (hfns : allAncFns now g' scc = some fns) (hok : fns.1 = true) {u y : ℕ}
    {e : RccDTxn} (hu : u ∈ scc) (huy : Above g' u y) (hy : y ∉ scc) (he : g'.find y = some e)
    (hlive : e.live) : e.executed = true := by
  have hset := hc.settled.since h.since
  have hdecided : txnDcd ≤ e.status → e.executed = true := by
    intro hdcd
    obtain ⟨e0, he0, hst⟩ := h.beyond y e hy he
    obtain ⟨e', he', hlater⟩ := h.since.find he0
    obtain rfl := some.inj (he.symm.trans he')
    rw [h.since.above_eq] at huy
    have hvy : Above g v y := ((h.members u).mp hu).1.trans huy
    exact hlater.executed (hc.decided y e0 hvy (fun hyv => hy ((h.members y).mpr ⟨hvy, hyv⟩)) he0
      ((hlater.live_iff (hc.settled.known y e0 he0)).mp hlive) (hst ▸ hdcd))
  obtain ⟨first, hfirst, rfl⟩ := map_eq_some_iff.mp hfns
  have hmem : first ∈ scc := List.mem_of_mem_head? hfirst
  obtain ⟨df, hdf⟩ := isSome_iff_exists.mp (h.present first hmem)
  have hfirst_y : Above g' first y := by
    rw [h.since.above_eq] at huy ⊢
    exact (((h.members first).mp hmem).2.trans ((h.members u).mp hu).1).trans huy
  have hex : (traversePred (ancFns now scc first) g' first).exited = false := by simpa using hok
  rcases tour_reaches (I := Looked (NotInvolved g') g')
    (fun a _ b hb => List.mem_dedup.mpr (mem_keys.mpr (mem_parentsIn.mp hb).2))
    (fun g'' p hg => ⟨hg.ancFns now scc first p, ancFns_judges hg⟩) (Looked.refl g')
    (mem_dedup_keys hdf) hex hfirst_y with (rfl | ⟨d, hd, hno, hdcd⟩) | ⟨z, hz, hzy⟩
  · exact absurd hmem hy
  · obtain rfl := some.inj (he.symm.trans hd)
    exact hdcd.elim hdecided fun hin => absurd hin hy
  · rcases hz with hz | ⟨d, hd, hskip⟩
    · -- a walk goes to records only
      rcases cases_head hzy with rfl | ⟨b, hb, -⟩
      · cases hz.symm.trans he
      · obtain ⟨⟨d, hd, -⟩, -⟩ := mem_parentsIn.mp hb
        cases hz.symm.trans hd
    · rcases hskip with hex | hflag
      · exact (h.closure hs hc.settled z d y e hd hex hzy he hlive).elim id hdecided
      · refine hset.foreign z d y e hd ?_ hzy he hlive
        have hknown := hset.known z d hd
        revert hflag hknown
        cases d.involveFlag <;> simp

end Guard

/-! ### Runs -/

section

variable {site : Site} {s s' s0 : Server} {e : Check}

/-- A look keeps what is known of the records. -/
theorem checkStep_sound (hs : Sound s.dtxns) (hc : DecidedDone s.dtxns e.v)
    (h : s.checkStep site e = some s') : Sound s'.dtxns := by
  obtain ⟨r, s1, hlook, hexec, -, hleft⟩ := checkEntry_cases h
  rcases lookAt_cases hlook with ⟨hnone, hr⟩ | ⟨g1, scc, g2, fns, h1, hf, hfns, hr, hout⟩
  · rcases hexec with ⟨-, rfl⟩ | ⟨c, hc', -⟩
    · have hall := hr.append hleft
      refine ⟨hs.closure.since hc.settled (Dict.Rel.mono hall fun _ _ _ hd => hd.toKept.later)
        fun x d d' hd hd' hex => .inl ?_, hs.cache.congr hall fun _ _ _ hd => ⟨hd.parents, hd.scc⟩⟩
      obtain ⟨d0, hd0, hseen⟩ := hall.find_rev hd'
      rw [← some.inj (hd0.symm.trans hd)]
      exact (hseen.new hex).elim id False.elim
    · cases hnone.symm.trans hc'
  · have hprep := prepared hs.cache h1 hf
    have hset := hc.settled.since hprep.since
    -- who may have become executed: transactions that are not for this partition, and the component
    have hall : Dict.Rel (fun x => Kept (NotInvolved (decideScc scc g2) x ∨ (fns.1 = true ∧ x ∈ scc)))
        (decideScc scc g2) s'.dtxns := by
      have hwalk := (allAncFns_looked hfns).trans hr
      have hmid : Dict.Rel (fun x => Kept (fns.1 = true ∧ x ∈ scc)) r.2.dtxns s1.dtxns := by
        rcases hexec with ⟨-, rfl⟩ | ⟨c, hc', hrun⟩
        · exact rel_refl (fun _ d => Kept.refl d) _
        · rcases hout with hnone | ⟨hsome, hok⟩
          · cases hnone.symm.trans hc'
          · obtain rfl := some.inj (hsome.symm.trans hc')
            exact (executeScc_kept hrun).mono fun x _ _ hd => hd.mono fun hx => ⟨hok, hx⟩
      refine (Dict.Rel.trans hwalk hmid fun _ _ _ _ hab hbc => hab.toKept.trans hbc).trans hleft
        fun x _ _ _ hab hbc => (hab.trans hbc.toKept).mono ?_
      tauto
    refine ⟨(hprep.closure hs.closure hc.settled).since hset (since_of_kept hall)
      fun x d d' hd hd' hex => ?_, hprep.cache.congr hall fun _ _ _ hd => ⟨hd.parents, hd.scc⟩⟩
    obtain ⟨d0, hd0, hkept⟩ := hall.find_rev hd'
    obtain rfl := some.inj (hd0.symm.trans hd)
    refine (hkept.new hex).imp_right fun hwho y e hxy he hlive => ?_
    rcases hwho with ⟨d1, hd1, hflag⟩ | ⟨hok, hx⟩
    · obtain rfl := some.inj (hd1.symm.trans hd)
      refine .inl (hset.foreign x d1 y e hd ?_ hxy he hlive)
      have hknown := hset.known x d1 hd
      revert hflag hknown
      cases d1.involveFlag <;> simp
    · by_cases hy : y ∈ scc
      · exact .inr (hprep.decided y hy e he)
      · exact .inl (hprep.ancestors_executed hs.closure hc hfns hok hx hxy hy he hlive)

/-- In a run of looks each of which finds the decided ancestors executed, a component is executed
    after all live ancestors beyond it. -/
theorem executeScc_after_ancestors {es : List Check} {scc : List ℕ} {s1 : Server}
    (h0 : Sound s0.dtxns) (hrun : run (checkStep site) s0 es = some s)
    (halong : Along (checkStep site) (fun s e => DecidedDone s.dtxns e.v) s0 es)
    (hc : DecidedDone s.dtxns e.v) (hlook : s.lookAt site e.now e.v = some (some scc, s1)) :
    ∀ u ∈ scc, ∀ y d, Above s1.dtxns u y → y ∉ scc → s1.dtxns.find y = some d →
      d.involveFlag = .involved → d.isAborted = false → d.executed = true := by
  intro u hu y d huy hy hd hinv hab
  have hs : Sound s.dtxns := throughout_last (P := fun s : Server => Sound s.dtxns)
    (throughout_of_inv (fun s e s' hs hc h => checkStep_sound hs hc h) h0 halong) hrun
  rcases lookAt_cases hlook with ⟨hnone, -⟩ | ⟨g1, c, g2, fns, h1, hf, hfns, hr, hout⟩
  · cases hnone
  · rcases hout with hnone | ⟨hsome, hok⟩
    · cases hnone
    · obtain rfl := some.inj hsome
      have hprep := prepared hs.cache h1 hf
      have hset := hc.settled.since hprep.since
      have hwalk := (allAncFns_looked hfns).trans hr
      obtain ⟨e3, he3, hseen⟩ := hwalk.find_rev hd
      have hsince : Since (decideScc scc g2) s1.dtxns :=
        Dict.Rel.mono hwalk fun _ _ _ hd => hd.toKept.later
      rw [hsince.above_eq] at huy
      have hlive : e3.live := (hseen.toKept.later.live_iff (hset.known y e3 he3)).mp ⟨hinv, hab⟩
      exact hseen.executed (hprep.ancestors_executed hs.closure hc hfns hok hu huy hy he3 hlive)

theorem sound_of_fresh {g : Dtxns} (h : ∀ e ∈ g.entries, e.2.executed = false ∧ e.2.scc = none) :
    Sound g := by
  have hfind : ∀ x d, g.find x = some d → d.executed = false ∧ d.scc = none := fun x d hd =>
    h _ (mem_entries_of_find hd)
  have hno : ∀ x, hasScc g x = false := fun x => by
    unfold hasScc
    cases hx : g.find x with
    | none => rfl
    | some d => rw [any_some, (hfind x d hx).2]; rfl
  refine ⟨fun x d y e hd hex => ?_, fun w x hw => ?_, fun w d scc hd hscc => ?_⟩
  · exact Bool.noConfusion ((hfind x d hd).1.symm.trans hex)
  · exact Bool.noConfusion ((hno w).symm.trans hw)
  · cases (hfind w d hd).2.symm.trans hscc

theorem decidedDone_of_entries {g : Dtxns} {v : ℕ} (h : ∀ e ∈ g.entries,
    e.2.involveFlag = .involved ∧ (e.1 = v ∨ e.2.executed = true ∨ e.2.status < txnDcd)) :
    DecidedDone g v := by
  have hfind : ∀ x d, g.find x = some d → d.involveFlag = .involved ∧
      (x = v ∨ d.executed = true ∨ d.status < txnDcd) := fun x d hd =>
    h _ (mem_entries_of_find hd)
  refine ⟨⟨fun x d hd hflag => ?_, fun f d _ _ hd hflag => ?_⟩, fun y e _ hyv he _ hdcd => ?_⟩
  · cases (hfind x d hd).1.symm.trans hflag
  · cases (hfind f d hd).1.symm.trans hflag
  rcases (hfind y e he).2 with rfl | hex | hlt
  · exact absurd ReflTransGen.refl hyv
  · exact hex
  · exact absurd hdcd (Nat.not_le.mpr hlt)

def plainSite : Site := { parId := 0, handler := fun _ _ _ => .done {} }

/-- A committed transaction of this partition, whose pieces have been dispatched. -/
def committedTxn (parents : OrdSet ℕ) (dreqs : List SimpleCommand) : RccDTxn :=
  { status := txnCmt, parents := parents, involveFlag := .involved, fullyDispatched := true
    dreqs := dreqs, nLocalPieces := dreqs.length }

/-- Transaction 2 depends on transaction 1, whose pieces are given. -/
def chainServer (dreqs : List SimpleCommand) : Server :=
  { dtxns := ⟨[(1, committedTxn ∅ dreqs), (2, committedTxn {1} [])]⟩ }

/-- A piece that waits for a variable. -/
def waitingPiece : SimpleCommand :=
  { innId := 0, type := 1, input := ⟨{7}, {}, ⟨[(7, false)]⟩, false⟩ }

theorem executeScc_after_ancestors_chain : ∃ s s1,
    run (checkStep plainSite) (chainServer []) [⟨1, fun _ => 0⟩] = some s ∧
    s.lookAt plainSite (fun _ => 0) 2 = some (some [2], s1) ∧
    ∀ u ∈ [2], ∀ y d, Above s1.dtxns u y → y ∉ [2] → s1.dtxns.find y = some d →
      d.involveFlag = .involved → d.isAborted = false → d.executed = true := by
  have hsome : ((run (checkStep plainSite) (chainServer []) [⟨1, fun _ => 0⟩]).bind fun s =>
      if (∀ e ∈ s.dtxns.entries, e.2.involveFlag = .involved ∧
        (e.1 = 2 ∨ e.2.executed = true ∨ e.2.status < txnDcd)) ∧
        (s.lookAt plainSite (fun _ => 0) 2).map Prod.fst = some (some [2]) then some s
      else none).isSome = true := by decide
  obtain ⟨s, hs⟩ := isSome_iff_exists.mp hsome
  obtain ⟨s', hrun, hs⟩ := bind_eq_some_iff.mp hs
  split at hs
  · next hcond =>
    obtain rfl := some.inj hs
    obtain ⟨⟨_, s1⟩, hlook, rfl⟩ := map_eq_some_iff.mp hcond.2
    refine ⟨s', s1, hrun, hlook, ?_⟩
    exact executeScc_after_ancestors (e := ⟨2, fun _ => 0⟩) (sound_of_fresh (by decide)) hrun
      (fun _ _ => ⟨decidedDone_of_entries (by decide), trivial⟩)
      (decidedDone_of_entries (v := 2) hcond.1) hlook
  · cases hs

/-- Transaction 1 is decided and its piece waits; transaction 2 is executed nevertheless. -/
theorem executeScc_before_ancestor :
    ((run (checkStep plainSite) (chainServer [waitingPiece]) [⟨1, fun _ => 0⟩]).bind fun s =>
      s.lookAt plainSite (fun _ => 0) 2).map (fun r => (r.1, parentsIn r.2.dtxns 2,
        (r.2.dtxns.find 1).map fun d => (d.involveFlag, d.isAborted, d.executed))) =
      some (some [2], [1], some (.involved, false, false)) := by
  decide

end

end Fiss.Rcc
