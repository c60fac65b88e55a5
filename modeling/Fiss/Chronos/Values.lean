import Fiss.Chronos.Ready
import Fiss.Rcc.Inputs

/-! The values a transaction waits for. Its pieces come with `OnPrepareIRT` or `OnPrepareCRT`, the
    values they wait for from other partitions with `OnSendOutput`, in any order and with any other
    events in between, `CheckExecutableTxns` and notifications of the same transaction among them.

    `OnSendOutput` hands a value to the pieces that are there and keeps none for later, and
    `OnPrepareCRT` stores the pieces of a transaction only if the site has no record of it. So what a
    piece ends with is what came after it: the values that came before it are lost, and so is the piece
    itself if it is one of `OnPrepareCRT` and the site knew of the transaction. -/

namespace Fiss.Chronos
open Fiss.Rcc List Option Prod Dict Sched TxChronos

/-! ### The messages about a transaction -/

/-- The message that delivers the pieces of a transaction to a participant. -/
inductive Delivers (id : ℕ) (cmds : List SimpleCommand) : Event → Prop
  | irt (ts : ChrTs) : Delivers id cmds (.prepareIRT id cmds ts)
  | crt (req : PrepareCRTReq) (now : ℤ) : Delivers id cmds (.prepareCRT id cmds req now)

/-- The pieces are stored: by `OnPrepareIRT` always, by `OnPrepareCRT` if the transaction is new. -/
def Event.Stores (id : ℕ) (s : Sched) : Event → Prop
  | .prepareIRT _ _ _ => True
  | _ => s.dtxns.find id = none

/-- All values that come for a transaction. -/
def delivered (id : ℕ) (es : List Event) : List (ℕ × Value) := es.flatMap (Event.valuesFor id)

/-- The pieces of a transaction as they are at the site. -/
def Sched.piecesOf (id : ℕ) (s : Sched) : List SimpleCommand :=
  ((s.dtxns.find id).map pieces).getD []

/-- A piece of this kind, run here on some input, has the variable among its outputs. -/
def Site.Produces (site : Site) (c : SimpleCommand) (x : ℕ) : Prop :=
  ∃ (c' : SimpleCommand) (rows : List Row) (output : Dict ℕ Value) (rows' : List Row),
    c'.rootType = c.rootType ∧ c'.type = c.type ∧
      site.dispatchExecute c' rows = some (output, rows') ∧ (output.find x).isSome

/-! ### What a piece has been handed -/

/-- `c'` is the piece `c` after the values `l`, as far as the variables `X` go. -/
structure Taken (X : ℕ → Prop) (l : List (ℕ × Value)) (c c' : SimpleCommand) : Prop where
  rootType : c'.rootType = c.rootType
  type : c'.type = c.type
  input : ∃ o, c'.input = (c.offers o).input ∧ ∀ x, X x → o.lookup x = l.lookup x

/-- So are all pieces. -/
structure AllTaken (X : ℕ → Prop) (l : List (ℕ × Value)) (cmds pieces : List SimpleCommand) : Prop where
  length : pieces.length = cmds.length
  piece : ∀ (k : ℕ) (c c' : SimpleCommand), cmds[k]? = some c → pieces[k]? = some c' → Taken X l c c'

section Taken

variable {X : ℕ → Prop} {l l' v : List (ℕ × Value)} {c c' : SimpleCommand}
  {cmds pieces : List SimpleCommand}

theorem Taken.offers (h : Taken X l c c') (hl : ∀ x, X x → l'.lookup x = (l ++ v).lookup x) :
    Taken X l' c (c'.offers v) := by
  obtain ⟨o, ho, hlook⟩ := h.input
  refine ⟨?_, ?_, o ++ v, input_offers_append ho v, fun x hx => ?_⟩
  · rw [offers_eq]; exact h.rootType
  · rw [offers_eq]; exact h.type
  · rw [hl x hx, lookup_append, lookup_append, hlook x hx]

theorem AllTaken.map_offers (h : AllTaken X l cmds pieces)
    (hl : ∀ x, X x → l'.lookup x = (l ++ v).lookup x) :
    AllTaken X l' cmds (pieces.map fun c => c.offers v) := by
  refine ⟨by rw [length_map]; exact h.length, fun k c c' hc hc' => ?_⟩
  rw [getElem?_map] at hc'
  obtain ⟨b, hb, rfl⟩ := map_eq_some_iff.mp hc'
  exact (h.piece k c b hc hb).offers hl

theorem AllTaken.filedAt (h : AllTaken X l cmds pieces) (hv : ∀ x, X x → v.lookup x = none) (i : ℕ) :
    AllTaken X l cmds (filedAt pieces i v) := by
  refine ⟨by rw [length_filedAt]; exact h.length, fun k c c' hc hc' => ?_⟩
  rw [getElem_filedAt] at hc'
  obtain ⟨b, hb, rfl⟩ := map_eq_some_iff.mp hc'
  have hmark : Taken X l c (if i = k then b.mark else b) := by
    have htaken := h.piece k c b hc hb
    split
    · exact ⟨htaken.rootType, htaken.type, htaken.input⟩
    · exact htaken
  refine hmark.offers fun x hx => ?_
  rw [lookup_append, hv x hx, or_none]

theorem allTaken_clear (X : ℕ → Prop) (cmds : List SimpleCommand) :
    AllTaken X [] cmds (cmds.map SimpleCommand.clear) := by
  refine ⟨length_map _, fun k c c' hc hc' => ?_⟩
  rw [getElem?_map, hc] at hc'
  obtain rfl := some.inj hc'
  exact ⟨rfl, rfl, [], rfl, fun _ _ => rfl⟩

theorem AllTaken.exists (h : AllTaken X l cmds pieces) {k : ℕ} (hc : cmds[k]? = some c) :
    ∃ c', pieces[k]? = some c' ∧ Taken X l c c' := by
  have hlt : k < pieces.length := by
    rw [h.length]
    exact (List.getElem?_eq_some_iff.mp hc).1
  have hc' := getElem?_eq_getElem hlt
  exact ⟨_, hc', h.piece k c _ hc hc'⟩

theorem taken_same_iff {c1 c2 : SimpleCommand} (h : c.input.Declared) (hX : ∀ x, c.missing x → X x)
    (hall : ∀ x, c.missing x → (l'.lookup x).isSome) (h1 : Taken X l c c1) (h2 : Taken X l' c c2) :
    (c1.input.pieceInputReady = true ∧ ∀ x, c1.input.values.find x = c2.input.values.find x) ↔
    ∀ x, c.missing x → l.lookup x = l'.lookup x := by
  obtain ⟨o1, hin1, hlook1⟩ := h1.input
  obtain ⟨o2, hin2, hlook2⟩ := h2.input
  rw [hin1, hin2, offers_same_iff h fun x hx => by rw [hlook2 x (hX x hx)]; exact hall x hx]
  refine forall₂_congr fun x hx => ?_
  rw [hlook1 x (hX x hx), hlook2 x (hX x hx)]

end Taken

/-! ### Executing -/

section

variable {site : Site} {id : ℕ} {X : ℕ → Prop} {l : List (ℕ × Value)} {cmds : List SimpleCommand}
  {pending pending' : OrdSet ℕ} {st st' : Pass} {d : TxChronos} {s s' : Sched} {fin : Bool}

theorem piecesOf_congr (h : s'.dtxns = s.dtxns) : s'.piecesOf id = s.piecesOf id := by
  rw [piecesOf, piecesOf, h]

theorem piecesOf_of_find (h : s.dtxns.find id = some d) : s.piecesOf id = d.pieces := by
  rw [piecesOf, h]
  rfl

theorem piece_taken {i : ℕ} (hX : ∀ x, X x → ∀ c ∈ cmds, ¬ site.Produces c x)
    (hst : AllTaken X l cmds st.dtxn.pieces) (h : st.piece site pending i = some st') :
    AllTaken X l cmds st'.dtxn.pieces := by
  rcases piece_executes h with ⟨rfl, -⟩ | ⟨c, o, hex⟩
  · exact hst
  · obtain ⟨_, hd⟩ := hex.dtxn
    obtain ⟨output, rows, hout, ho⟩ := hex.output
    rw [hd]
    refine hst.filedAt (fun x hx => ?_) i
    have hlt : i < cmds.length := by
      rw [← hst.length]
      exact (List.getElem?_eq_some_iff.mp hex.piece).1
    have hkind := hst.piece i cmds[i] c (getElem?_eq_getElem hlt) hex.piece
    rcases ho with rfl | rfl
    · rfl
    · by_contra hsome
      exact hX x hx _ (getElem_mem hlt) ⟨c, st.rows, output, rows, hkind.rootType, hkind.type,
        hout, isSome_iff_ne_none.mpr hsome⟩

theorem recursive_taken (hX : ∀ x, X x → ∀ c ∈ cmds, ¬ site.Produces c x) {rows : List Row}
    (hd : AllTaken X l cmds d.pieces)
    (h : d.recursiveExecuteReadyPieces site pending rows = some st') :
    AllTaken X l cmds st'.dtxn.pieces :=
  recursive_inv (I := fun d => AllTaken X l cmds d.pieces) hd h fun _ _ _ hst hp =>
    piece_taken hX hst hp

theorem execute_pieces {x : ℕ} (hd : s.dtxns.find x = some d)
    (h : s.execute site x d pending = some (fin, pending', s')) (id : ℕ) :
    s'.piecesOf id = s.piecesOf id ∨ id = x ∧ ∃ st rows,
      d.recursiveExecuteReadyPieces site pending rows = some st ∧ s'.piecesOf id = st.dtxn.pieces := by
  -- the record at the end of the callback is the one at its beginning but for phase and status
  have hclose : ∀ {e : TxChronos} {t t' : Sched} {status : OrdMap ℕ DistPartStatus} {phase : TxnPhase},
      t.dtxns.find x = some e → Sched.Only x (e.close status phase) t t' →
        t'.piecesOf id = t.piecesOf id := by
    intro e t t' status phase he honly
    rw [piecesOf, honly.find, piecesOf]
    split
    · next hid => rw [hid, he]; rfl
    · rfl
  unfold execute at h
  split at h
  · obtain ⟨-, hrest⟩ := mk.inj (some.inj h)
    obtain ⟨-, rfl⟩ := mk.inj hrest
    exact .inl rfl
  · split at h
    · obtain ⟨-, status, phase, -, honly, -⟩ := conclude_executed hd h
      exact .inl (hclose hd honly)
    · obtain ⟨st, hst, h⟩ := bind_eq_some_iff.mp h
      have hput := find_set_self s.dtxns x st.dtxn
      obtain ⟨-, status, phase, -, honly, -⟩ := conclude_executed hput h
      have hend := hclose hput honly
      rcases eq_or_ne id x with rfl | hne
      · refine .inr ⟨rfl, st, s.rows, hst, hend.trans ?_⟩
        show ((s.dtxns.set id st.dtxn).find id |>.map pieces).getD [] = _
        rw [hput]
        rfl
      · refine .inl (hend.trans ?_)
        show ((s.dtxns.set x st.dtxn).find id |>.map pieces).getD [] = _
        rw [find_set_ne _ hne]
        rfl

theorem visit_dtxns {k : ChrTs} {x : ℕ} {u u' : Sched.Loop} (h : u.visit site k x d = some u') :
    u'.sched.dtxns = u.sched.dtxns ∨ ∃ fin pending' t,
      u.sched.execute site x d u.pending = some (fin, pending', t) ∧ u'.sched.dtxns = t.dtxns := by
  have hcall : ∀ r, u.call site k x d = some r → ∃ fin pending' t,
      u.sched.execute site x d u.pending = some (fin, pending', t) ∧ r.2.sched.dtxns = t.dtxns := by
    intro r hr
    obtain ⟨⟨fin, pending', t⟩, ht, rfl⟩ := map_eq_some_iff.mp hr
    exact ⟨fin, pending', t, ht, rfl⟩
  unfold Sched.Loop.visit at h
  split at h
  · split at h
    · obtain ⟨r, hr, rfl⟩ := map_eq_some_iff.mp h
      right
      split <;> exact hcall r hr
    · exact .inl (by rw [← some.inj h])
  · obtain ⟨r, hr, rfl⟩ := map_eq_some_iff.mp h
    exact .inr (hcall r hr)

theorem check_taken (hX : ∀ x, X x → ∀ c ∈ cmds, ¬ site.Produces c x)
    (hs : AllTaken X l cmds (s.piecesOf id)) (h : s.check site = some s') :
    AllTaken X l cmds (s'.piecesOf id) := by
  have hvisit : ∀ (k : ChrTs) (x : ℕ) (d : TxChronos) (u u' : Sched.Loop),
      AllTaken X l cmds (u.sched.piecesOf id) → u.sched.dtxns.find x = some d →
        u.visit site k x d = some u' → AllTaken X l cmds (u'.sched.piecesOf id) := by
    intro k x d u u' hu hd hv
    rcases visit_dtxns hv with heq | ⟨fin, pending', t, hex, heq⟩
    · rw [piecesOf_congr heq]
      exact hu
    · rw [piecesOf_congr heq]
      rcases execute_pieces hd hex id with hsame | ⟨rfl, st, rows, hst, hpieces⟩
      · rw [hsame]
        exact hu
      · rw [hpieces]
        exact recursive_taken hX (piecesOf_of_find hd ▸ hu) hst
  obtain ⟨t, ht, rfl⟩ := map_eq_some_iff.mp h
  obtain ⟨-, u, hu, rfl⟩ := walk_inv (J := fun _ u => AllTaken X l cmds (u.sched.piecesOf id))
    (fun _ k x _ d u u' _ hu hd _ hv => hvisit k x d u u' hu hd hv)
    (show s.readyTxns.entries = [] ++ s.readyTxns.entries from rfl) hs ht
  exact hu

end

/-! ### One event -/

section

variable {site : Site} {id x : ℕ} {d : TxChronos} {s s' t : Sched} {e : Event}

theorem record_pieces (site : Site) (id : ℕ) (s : Sched) :
    (s.record site id).pieces = s.piecesOf id := by
  rw [record, piecesOf]
  cases s.dtxns.find id <;> rfl

theorem piecesOf_set (hs' : s'.dtxns = s.dtxns.set x d) :
    s'.piecesOf id = if id = x then d.pieces else s.piecesOf id := by
  rw [piecesOf, hs', find_set]
  split <;> rfl

theorem piecesOf_same (hs' : s'.dtxns = s.dtxns.set x d) (hd : d.pieces = s.piecesOf x) :
    s'.piecesOf id = s.piecesOf id := by
  rw [piecesOf_set hs']
  split
  · next hid => rw [hid, hd]
  · rfl

theorem piecesOf_advanced {par : ℕ} (ht : t.dtxns = s.dtxns) (hd : d.pieces = s.piecesOf x)
    (h : Sched.Advanced x par d t s') : s'.piecesOf id = s.piecesOf id := by
  cases h with
  | noted d' kept phase eq | decided d' kept phase sent ts all free c ms eq =>
    subst eq
    exact piecesOf_same (congrArg (Dict.set · x d') ht) (kept.pieces.trans hd)

theorem piecesOf_notify (infos : List ChrTxnInfo) (s : Sched) :
    (infos.foldl (notify site) s).piecesOf id = s.piecesOf id := by
  induction infos generalizing s with
  | nil => rfl
  | cons info infos ih =>
    rw [foldl_cons, ih, notify]
    split
    · next hnone =>
      refine piecesOf_same (d := notified site info) rfl ?_
      rw [piecesOf, hnone]
      rfl
    · rfl

theorem valuesFor_of_subject (he : e.subject ≠ some id) : e.valuesFor id = [] := by
  cases e with
  | sendOutput x values => exact if_neg fun hx : x = id => he (congrArg some hx)
  | _ => rfl

/-- An event that does not bring the pieces, and executes none, hands them its values. -/
theorem step_pieces (hcheck : e ≠ .check) (he : e.brings ≠ some id) (h : step site s e = some s') :
    s'.piecesOf id = (s.piecesOf id).map fun c => c.offers (e.valuesFor id) := by
  have hnone : ∀ cs : List SimpleCommand, (cs.map fun c => c.offers []) = cs := map_id
  cases step_does hcheck h with
  | idle ran maxTs dtxns ready values =>
    rw [piecesOf_congr dtxns]
    rcases values id with hval | hno
    · rw [hval]
      exact (hnone _).symm
    · rw [piecesOf, hno]
      rfl
  | writes x d' subject wrote change pieces counts =>
    rcases eq_or_ne id x with rfl | hne
    · rw [piecesOf_of_find ((wrote.find id).trans (if_pos rfl)), pieces.resolve_left he,
        record_pieces]
    · rw [valuesFor_of_subject fun hsub => hne (some.inj (hsub.symm.trans subject)),
        piecesOf, wrote.find, if_neg hne]
      exact (hnone _).symm
  | notifies remoteSite remoteTs infos now event eq =>
    obtain ⟨c, w, heq⟩ := hear_eq remoteSite remoteTs now (infos.foldl (notify site) s)
    rw [event, eq, piggy, heq]
    exact (piecesOf_notify infos s).trans (hnone _).symm

end

/-! ### Whole runs -/

section

variable {site : Site} {id : ℕ} {X : ℕ → Prop} {l : List (ℕ × Value)} {cmds : List SimpleCommand}
  {e : Event} {es : List Event} {s s' : Sched}

theorem step_taken (hX : ∀ x, X x → ∀ c ∈ cmds, ¬ site.Produces c x)
    (hs : AllTaken X l cmds (s.piecesOf id)) (he : e.brings ≠ some id) (h : step site s e = some s') :
    AllTaken X (l ++ e.valuesFor id) cmds (s'.piecesOf id) := by
  rcases Classical.em (e = .check) with rfl | hcheck
  · rw [show Event.valuesFor id .check = [] from rfl, append_nil]
    exact check_taken hX hs h
  · rw [step_pieces hcheck he h]
    exact hs.map_offers fun _ _ => rfl

theorem run_taken (hX : ∀ x, X x → ∀ c ∈ cmds, ¬ site.Produces c x) :
    ∀ {es : List Event} {l : List (ℕ × Value)} {s : Sched}, AllTaken X l cmds (s.piecesOf id) →
      (∀ e ∈ es, e.brings ≠ some id) → run (step site) s es = some s' →
        AllTaken X (l ++ delivered id es) cmds (s'.piecesOf id)
  | [], l, s, hs, _, h => by
    obtain rfl := some.inj h
    rw [show delivered id [] = [] from rfl, append_nil]
    exact hs
  | e :: es, l, s, hs, hes, h => by
    obtain ⟨t, ht, h⟩ := run_cons.mp h
    have hnext := step_taken hX hs (hes e mem_cons_self) ht
    rw [delivered, flatMap_cons, ← append_assoc]
    exact run_taken hX hnext (fun e he => hes e (mem_cons_of_mem _ he)) h

theorem run_no_pieces (hs : s.piecesOf id = []) (hes : ∀ e ∈ es, e.brings ≠ some id)
    (h : run (step site) s es = some s') : s'.piecesOf id = [] := by
  have htaken : AllTaken (fun _ => False) [] [] (s.piecesOf id) := by
    rw [hs]
    exact ⟨rfl, fun k c c' hc => by cases hc⟩
  exact eq_nil_of_length_eq_zero (run_taken (fun _ hx => hx.elim) htaken hes h).length

theorem delivers_stored (hp : Delivers id cmds e) (hstores : e.Stores id s)
    (h : step site s e = some s') : s'.piecesOf id = cmds.map SimpleCommand.clear := by
  cases hp with
  | irt ts =>
    obtain ⟨-, rfl⟩ := prepareIRT_eq h
    exact (piecesOf_set rfl).trans (if_pos rfl)
  | crt req now =>
    obtain ⟨-, hprep⟩ := prepareCRT_prepared h
    cases hprep with
    | coordinator d d' find phase reported advanced => cases find.symm.trans hstores
    | known d find phase eq => cases find.symm.trans hstores
    | new find ms eq =>
      subst eq
      exact (piecesOf_set rfl).trans (if_pos rfl)

theorem delivers_dropped (hp : Delivers id cmds e) (hstores : ¬ e.Stores id s)
    (h : step site s e = some s') : s'.piecesOf id = s.piecesOf id := by
  cases hp with
  | irt ts => exact absurd trivial hstores
  | crt req now =>
    obtain ⟨-, hprep⟩ := prepareCRT_prepared h
    cases hprep with
    | coordinator d d' find phase reported advanced =>
      have hpieces := reported.pieces.trans (piecesOf_of_find find).symm
      exact piecesOf_advanced (t := s.hold req.anticipatedTs) rfl hpieces advanced
    | known d find phase eq =>
      subst eq
      refine piecesOf_same rfl ?_
      rw [piecesOf_of_find find]
      split <;> rfl
    | new find ms eq => exact absurd find hstores

end

/-- The values that come before the pieces of a transaction and those after them. Every piece for which
    all values have come is there and ready, with the values it has where the pieces come first,
    exactly if its message stores it and of each variable it misses the first value that comes after
    it is the first that comes at all. -/
theorem values_kept_iff {site : Site} {id : ℕ} {cmds : List SimpleCommand} {offset : ℤ} {p : Event}
    {early late again : List Event} {s1 s2 s3 t t' : Sched} (hp : Delivers id cmds p)
    (hcmds : ∀ c ∈ cmds, c.input.Declared)
    (hbrings : ∀ e ∈ early ++ late ++ again, e.brings ≠ some id)
    (hearly : run (step site) (newSched site offset) early = some s1) (hstep : step site s1 p = some s2)
    (hlate : run (step site) s2 late = some s3)
    (hremote : ∀ x, ((delivered id (early ++ late)).lookup x).isSome →
      ∀ c ∈ cmds, ¬ site.Produces c x)
    (hnew : t.dtxns.find id = none) (hfirst : run (step site) t (p :: again) = some t')
    (hagain : delivered id again = delivered id (early ++ late)) :
    (∀ (k : ℕ) (c : SimpleCommand), cmds[k]? = some c →
      (∀ x, c.missing x → ((delivered id (early ++ late)).lookup x).isSome) →
      ∃ c1 c2 : SimpleCommand, (s3.piecesOf id)[k]? = some c1 ∧ (t'.piecesOf id)[k]? = some c2 ∧
        c1.input.pieceInputReady = true ∧ ∀ x, c1.input.values.find x = c2.input.values.find x) ↔
    ∀ c ∈ cmds, (∀ x, c.missing x → ((delivered id (early ++ late)).lookup x).isSome) →
      p.Stores id s1 ∧
        ∀ x, c.missing x → (delivered id late).lookup x = (delivered id (early ++ late)).lookup x := by
  have hes : ∀ es, es ⊆ early ++ late ++ again → ∀ e ∈ es, e.brings ≠ some id :=
    fun es hsub e he => hbrings e (hsub he)
  have hbefore : s1.piecesOf id = [] :=
    run_no_pieces (s := newSched site offset) rfl (hes early (by simp)) hearly
  by_cases hstores : p.Stores id s1
  · -- both runs hand their values to the pieces as they were delivered
    have htaken := run_taken hremote (l := []) (delivers_stored hp hstores hstep ▸ allTaken_clear _ cmds)
      (hes late (by simp)) hlate
    obtain ⟨t1, ht1, hrest⟩ := run_cons.mp hfirst
    have hfresh : p.Stores id t := by
      cases hp with
      | irt ts => exact trivial
      | crt req now => exact hnew
    have hwhole := run_taken hremote (l := []) (delivers_stored hp hfresh ht1 ▸ allTaken_clear _ cmds)
      (hes again (by simp)) hrest
    rw [nil_append] at htaken hwhole
    rw [hagain] at hwhole
    constructor
    · intro h c hc hall
      obtain ⟨k, hk⟩ := mem_iff_getElem?.mp hc
      obtain ⟨c1, c2, hc1, hc2, hsame⟩ := h k c hk hall
      exact ⟨hstores, (taken_same_iff (hcmds c hc) hall hall (htaken.piece k c c1 hk hc1)
        (hwhole.piece k c c2 hk hc2)).mp hsame⟩
    · intro h k c hk hall
      have hc := mem_of_getElem? hk
      obtain ⟨c1, hc1, htaken1⟩ := htaken.exists hk
      obtain ⟨c2, hc2, htaken2⟩ := hwhole.exists hk
      exact ⟨c1, c2, hc1, hc2,
        (taken_same_iff (hcmds c hc) hall hall htaken1 htaken2).mpr (h c hc hall).2⟩
  · -- the pieces are dropped
    have hafter : s3.piecesOf id = [] :=
      run_no_pieces ((delivers_dropped hp hstores hstep).trans hbefore) (hes late (by simp)) hlate
    constructor
    · intro h c hc hall
      obtain ⟨k, hk⟩ := mem_iff_getElem?.mp hc
      obtain ⟨c1, c2, hc1, -⟩ := h k c hk hall
      rw [hafter] at hc1
      cases hc1
    · intro h k c hk hall
      exact absurd (h c (mem_of_getElem? hk) hall).1 hstores

/-- The value that `waitingPiece` waits for. -/
def nine : Dict ℕ Value := ⟨[(9, .i32 5)]⟩

/-- The value comes and is lost, the transaction is told of, its piece comes, and the value again. -/
theorem values_kept_iff_resent : ∃ s1 s2 s3 t', run (step threeSite) (newSched threeSite 0)
      [.sendOutput 7 nine, .piggy 0 ⟨5, 5, 0⟩ [⟨7, ⟨10, 10, 0⟩, 0⟩] 5, .check] = some s1 ∧
    step threeSite s1 (.prepareIRT 7 [waitingPiece] ⟨10, 10, 0⟩) = some s2 ∧
    run (step threeSite) s2 [.check, .sendOutput 7 nine, .check] = some s3 ∧
    run (step threeSite) (newSched threeSite 0) [.prepareIRT 7 [waitingPiece] ⟨10, 10, 0⟩,
      .sendOutput 7 nine, .sendOutput 7 nine] = some t' ∧
    ∀ (k : ℕ) (c : SimpleCommand), [waitingPiece][k]? = some c →
      (∀ x, c.missing x → ((nine.entries ++ nine.entries).lookup x).isSome) →
      ∃ c1 c2 : SimpleCommand, (s3.piecesOf 7)[k]? = some c1 ∧ (t'.piecesOf 7)[k]? = some c2 ∧
        c1.input.pieceInputReady = true ∧ ∀ x, c1.input.values.find x = c2.input.values.find x := by
  obtain ⟨s1, h1⟩ := isSome_iff_exists.mp (show (run (step threeSite) (newSched threeSite 0)
    [.sendOutput 7 nine, .piggy 0 ⟨5, 5, 0⟩ [⟨7, ⟨10, 10, 0⟩, 0⟩] 5, .check]).isSome by decide)
  obtain ⟨s3, h3⟩ := isSome_iff_exists.mp (show ((run (step threeSite) (newSched threeSite 0)
    [.sendOutput 7 nine, .piggy 0 ⟨5, 5, 0⟩ [⟨7, ⟨10, 10, 0⟩, 0⟩] 5, .check]).bind fun s1 =>
      run (step threeSite) s1 [.prepareIRT 7 [waitingPiece] ⟨10, 10, 0⟩, .check, .sendOutput 7 nine,
        .check]).isSome by decide)
  obtain ⟨t', ht'⟩ := isSome_iff_exists.mp (show (run (step threeSite) (newSched threeSite 0)
    [.prepareIRT 7 [waitingPiece] ⟨10, 10, 0⟩, .sendOutput 7 nine, .sendOutput 7 nine]).isSome by decide)
  rw [h1, bind_some] at h3
  obtain ⟨s2, h2, h3⟩ := run_cons.mp h3
  refine ⟨s1, s2, s3, t', h1, h2, h3, ht', ?_⟩
  refine (values_kept_iff (.irt _) ?_ (by decide) h1 h2 h3 ?_ rfl ht' rfl).mpr ?_
  · intro c hc
    rw [mem_singleton.mp hc]
    refine ⟨by decide, fun _ x => ?_, rfl⟩
    rcases eq_or_ne x 9 with rfl | hx
    · exact iff_of_true (by decide) rfl
    · refine iff_of_false (fun hmem => hx (mem_singleton.mp hmem)) ?_
      simp [waitingPiece, find, lookup, beq_eq_false_iff_ne.mpr hx]
  · rintro x - c - ⟨c', rows, output, rows', -, -, hout, hx⟩
    obtain ⟨rfl, -⟩ := mk.inj (some.inj hout)
    cases hx
  · intro c _ _
    refine ⟨trivial, fun x _ => ?_⟩
    rcases eq_or_ne x 9 with rfl | hx
    · rfl
    · simp [delivered, Event.valuesFor, nine, lookup, beq_eq_false_iff_ne.mpr hx]

/-- A value that comes before its piece is lost; and so is the piece of a transaction over several
    regions whose decision comes before it. -/
theorem early_value_lost_run : ((run (handle threeSite) (newSched threeSite 0)
      [.sendOutput 7 nine, .prepareIRT 7 [waitingPiece] ⟨10, 10, 0⟩ [] 10 11]).map fun s =>
        (s.piecesOf 7).map fun c => c.input.pieceInputReady) = some [false] ∧
    ((run (handle threeSite) (newSched threeSite 0)
      [.prepareIRT 7 [waitingPiece] ⟨10, 10, 0⟩ [] 10 11, .sendOutput 7 nine]).map fun s =>
        (s.piecesOf 7).map fun c => (c.input.pieceInputReady, c.input.values.find 9)) =
          some [(true, some (.i32 5))] ∧ ((run (handle threeSite) (newSched threeSite 0)
      [.distExe 7 ⟨95, 0, 7⟩, .prepareCRT 7 [waitingPiece] ⟨⟨90, 0, 6⟩, 4, 0, 1⟩ 10,
        .sendOutput 7 nine]).map fun s => s.piecesOf 7) = some [] := by
  decide

end Fiss.Chronos
