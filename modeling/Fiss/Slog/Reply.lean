import Fiss.Slog.Moves

/-! The reply to a client. The coordinating site notes which partitions have reported, its own when
    its pieces are executed and the others when their outputs come, and replies when all have: once, as
    the last of them reports. The outputs that come from other partitions are not put into the output
    of the transaction, so that what is returned is complete only if there are none. -/

namespace Fiss.Slog
open Fiss.Rcc List OrdMap Bool Site Out
open Option (some.inj map_some)
open SimpleCommand (innId)

section Served

variable {DB : Type}

/-- A site with what clients have submitted to it and the outputs that came, by transaction and
    partition. -/
structure Served (DB : Type) where
  sched : Sched DB
  submitted : Dict ℕ Cmds := {}
  received : List (ℕ × ℕ × TxnOutput) := []

/-- A step of the site, put down. -/
def servedStep (site : Site DB) (st : Served DB) (ev : SiteEvent) : Option (Served DB) :=
  (siteStep site st.sched ev).map fun s =>
    match ev with
    | .submitTxn cmds =>
      { st with
        sched := s
        submitted := match site.txnId cmds with
          | some t => st.submitted.set t cmds
          | none => st.submitted }
    | .sendTxnOutput t par output =>
      { st with sched := s, received := st.received ++ [(t, par, output)] }
    | _ => { st with sched := s }

def Out.isReply (t : ℕ) : Out → Bool
  | .reply u _ => u = t
  | _ => false

/-- How often `t` was replied. -/
def Sched.replies (st : Sched DB) (t : ℕ) : ℕ := st.sent.countP (isReply t)

/-- A partition has reported: it is this one and the transaction is executed, or its output came. -/
def Served.HasReported (site : Site DB) (st : Served DB) (t par : ℕ) : Prop :=
  if par = site.parId then ∃ d, st.sched.dtxns.find t = some d ∧ d.executed = true
  else ∃ output, (t, par, output) ∈ st.received

/-- What a partition has reported of a piece. -/
def Served.Reported (site : Site DB) (st : Served DB) (t par x : ℕ) (out : Dict ℕ Value) : Prop :=
  if par = site.parId then ∃ e ∈ st.sched.ran, e.txn = t ∧ e.innId = x ∧ e.output = out
  else ∃ output, (t, par, output) ∈ st.received ∧ output.find x = some out

/-- The client is replied once, when every partition has reported. -/
structure Served.RepliedOnce (site : Site DB) (st : Served DB) (t : ℕ) (cmds : Cmds) : Prop where
  most : st.sched.replies t ≤ 1
  after : st.sched.replies t = 1 ↔ ∀ par ∈ cmds.keys, st.HasReported site t par

/-- The output has what every partition reported of every piece. -/
def Served.Complete (site : Site DB) (st : Served DB) (t : ℕ) (cmds : Cmds)
    (output : TxnOutput) : Prop :=
  ∀ p ∈ cmds.entries, ∀ c ∈ p.2, ∃ out, output.find c.innId = some out ∧
    st.Reported site t p.1 c.innId out

/-- A transaction as clients make it: each partition it touches has a piece, and no two pieces have
    one `inn_id`. -/
structure Chopped (cmds : Cmds) : Prop where
  nonempty : ∀ p ∈ cmds.entries, p.2 ≠ []
  nodup : (cmds.entries.flatMap fun p => p.2.map innId).Nodup

/-- What comes to a site: transactions once and as clients make them, and outputs of other
    partitions, since the replicas of the coordinating one send none. -/
def Incoming (site : Site DB) (st : Served DB) (ev : SiteEvent) : Prop :=
  Fresh site st.sched ev ∧ match ev with
    | .submitTxn cmds => Chopped cmds
    | .sendTxnOutput _ par _ => par ≠ site.parId
    | _ => True

/-- The `inn_id`s of the pieces for this partition. -/
def Site.ownIds (site : Site DB) (cmds : Cmds) : List ℕ :=
  ((cmds.find site.parId).getD []).map innId

/-- The note kept for a partition of transaction `t`. -/
def Site.noted (site : Site DB) (received : List (ℕ × ℕ × TxnOutput)) (t par : ℕ)
    (d : TxSlog) : Bool :=
  if par = site.parId then d.executed else received.any fun m => m.1 = t ∧ m.2.1 = par

/-- An output has the output of an execution for piece `x`. -/
def Filed (ran : List Execution) (t x : ℕ) (output : TxnOutput) : Prop :=
  ∃ e ∈ ran, e.txn = t ∧ e.innId = x ∧ output.find x = some e.output

/-- The record of a transaction that was submitted here. -/
structure Fronted (site : Site DB) (received : List (ℕ × ℕ × TxnOutput)) (t : ℕ)
    (cmds : Cmds) (st : Sched DB) (d : TxSlog) : Prop where
  found : st.dtxns.find t = some d
  callback : d.callback = .client
  ids : d.pieces.map innId = site.ownIds cmds
  outputs : ∀ x, (d.distOutput.find x).isSome → x ∈ site.ownIds cmds
  filed : ∀ c ∈ d.pieces, c.localExecuted = true → Filed st.ran t c.innId d.distOutput
  flags : ∀ par, d.parOutputReceived.find par =
    if par ∈ cmds.keys then some (site.noted received t par d) else none
  count : site.parId ∈ cmds.keys →
    st.replies t = if d.parOutputReceived.entries.all fun e => e.2 then 1 else 0
  /-- what was replied has the outputs of this partition, and no others -/
  replied : ∀ output, reply t output ∈ st.sent →
    (∀ x, (output.find x).isSome → x ∈ site.ownIds cmds) ∧
      (site.parId ∈ cmds.keys → ∀ x ∈ site.ownIds cmds, Filed st.ran t x output)

end Served

/-! ### What the moves do to a record that was submitted here -/

section

variable {DB : Type} {site : Site DB} {src : Supply}
  {received received' : List (ℕ × ℕ × TxnOutput)}
  {t t' : ℕ} {cmds : Cmds} {st st' : Sched DB} {d d' : TxSlog}

theorem Filed.mono {ran more : List Execution} {x : ℕ} {output : TxnOutput}
    (h : Filed ran t x output) : Filed (ran ++ more) t x output := by
  obtain ⟨e, he, hrest⟩ := h
  exact ⟨e, mem_append_left _ he, hrest⟩

theorem reply_other (site : Site DB) (hne : t' ≠ t) (d : TxSlog) :
    ∀ o ∈ d.reply site t', o.isReply t = false := by
  intro o ho
  rw [TxSlog.reply] at ho
  split at ho
  · split at ho
    · rw [mem_singleton.mp ho]
      exact decide_eq_false hne
    · cases ho
  · cases ho
  · split at ho
    · rw [mem_singleton.mp ho]
      rfl
    · cases ho

theorem replies_append {out : List Out} (h : ∀ o ∈ out, o.isReply t = false) :
    (st.sent ++ out).countP (isReply t) = st.replies t := by
  have hzero : out.countP (isReply t) = 0 :=
    countP_eq_zero.mpr fun o ho => by rw [h o ho]; exact false_ne_true
  rw [countP_append, hzero, Nat.add_zero, Sched.replies]

theorem reply_mem_append {out : List Out} (h : ∀ o ∈ out, o.isReply t = false)
    {output : TxnOutput} (hin : reply t output ∈ st.sent ++ out) : reply t output ∈ st.sent := by
  rcases mem_append.mp hin with hin | hin
  · exact hin
  · have hno := h _ hin
    rw [isReply, decide_eq_false_iff_not] at hno
    exact absurd rfl hno

theorem Fronted.frame (h : Fronted site received t cmds st d) (hfound : st'.dtxns.find t = some d)
    {more : List Execution} (hran : st'.ran = st.ran ++ more) {out : List Out}
    (hsent : st'.sent = st.sent ++ out) (hout : ∀ o ∈ out, o.isReply t = false) :
    Fronted site received t cmds st' d where
  found := hfound
  callback := h.callback
  ids := h.ids
  outputs := h.outputs
  filed c hc hx := hran ▸ (h.filed c hc hx).mono
  flags := h.flags
  count hown := by
    rw [← h.count hown, Sched.replies, hsent]
    exact replies_append hout
  replied output hin := by
    obtain ⟨honly, hall⟩ := h.replied output (reply_mem_append hout (hsent ▸ hin))
    exact ⟨honly, fun hown x hx => hran ▸ (hall hown x hx).mono⟩

theorem ownIds_nodup (hcmds : Chopped cmds) : (site.ownIds cmds).Nodup := by
  rw [ownIds]
  cases hfind : cmds.find site.parId with
  | none => exact nodup_nil
  | some pieces =>
    obtain ⟨hall, -⟩ := nodup_flatMap.mp hcmds.nodup
    exact hall _ (find_eq_some.mp hfind)

/-- The execution of one of its pieces. -/
theorem Fronted.execute {k : ℕ} {c : SimpleCommand} (hcmds : Chopped cmds)
    (h : Fronted site received t cmds st d) (hc : d.pieces[k]? = some c) :
    ∃ d', Fronted site received t cmds (st.executePiece site t k d c) d' := by
  let pass : Pass DB := { dtxn := d, db := st.db, ran := st.ran }
  obtain ⟨o, ho⟩ := execute_filed site t k c pass
  have hran : (st.executePiece site t k d c).ran = st.ran ++ [⟨t, k, c.innId, c.input,
      (site.dispatchExecute c d.dreqs st.db).1, decide (c.innId ∉ d.dreqs)⟩] := rfl
  have hids : ∀ (i : ℕ) (c' : SimpleCommand), (pass.execute site t k c).dtxn.pieces[i]? = some c' →
      ∃ c0, d.pieces[i]? = some c0 ∧ c'.innId = c0.innId := fun i c' hc' => by
    obtain ⟨c0, hc0, hfed⟩ := (advanced_execute site t k c pass).pieces i c' hc'
    exact ⟨c0, hc0, hfed.innId⟩
  have hsame : (pass.execute site t k c).dtxn.pieces.map innId =
      d.pieces.map innId := by
    rw [ho]
    refine ext_getElem? fun i => ?_
    rw [getElem?_map, getElem?_map, getElem_filedAt, Option.map_map]
    refine congrArg (fun f => Option.map f d.pieces[i]?) (funext fun c0 => ?_)
    rw [Function.comp_apply, innId_offers]
    split <;> rfl
  have hnodup : (d.pieces.map innId).Nodup := h.ids ▸ ownIds_nodup hcmds
  have hmem : c.innId ∈ site.ownIds cmds := by
    rw [← h.ids]
    exact mem_map_of_mem (mem_of_getElem? hc)
  refine ⟨(pass.execute site t k c).dtxn, Dict.find_set_self _ _ _, h.callback, hsame.trans h.ids,
    fun x hx => ?_, fun c' hc' hx => ?_, h.flags, h.count, fun output hin => ?_⟩
  · have hx : ((d.distOutput.set c.innId _).find x).isSome := hx
    rw [Dict.find_set] at hx
    split at hx
    · next heq => exact heq ▸ hmem
    · exact h.outputs x hx
  · obtain ⟨i, hi⟩ := mem_iff_getElem?.mp hc'
    obtain ⟨c0, hc0, hid⟩ := hids i c' hi
    rw [hran, hid]
    rcases eq_or_ne k i with rfl | hki
    · obtain rfl : c0 = c := some.inj (hc0.symm.trans hc)
      exact ⟨_, mem_append_right _ mem_cons_self, rfl, rfl, Dict.find_set_self _ _ _⟩
    · -- another piece has another `inn_id`
      have hne : c0.innId ≠ c.innId := fun heq => hki ((getElem?_inj
        (by rw [length_map]; exact (List.getElem?_eq_some_iff.mp hc).1) hnodup).mp
          (by rw [getElem?_map, getElem?_map, hc, hc0, map_some, map_some, heq]))
      rw [ho, getElem_filedAt, hc0, map_some, if_neg hki] at hi
      rw [← some.inj hi, localExecuted_offers] at hx
      obtain ⟨e, he, het, hex, hfind⟩ := h.filed c0 (mem_of_getElem? hc0) hx
      exact ⟨e, mem_append_left _ he, het, hex, (Dict.find_set_ne _ hne _).trans hfind⟩
  · obtain ⟨honly, hall⟩ := h.replied output hin
    exact ⟨honly, fun hown x hx => hran ▸ (hall hown x hx).mono⟩

theorem Fronted.report (h : Fronted site received t cmds st d) (hfound : st'.dtxns.find t = some d')
    (hran : st'.ran = st.ran) (hsent : st'.sent = st.sent ++ d'.reply site t)
    (hcallback : d'.callback = d.callback) (hpieces : d'.pieces = d.pieces)
    (houtput : d'.distOutput = d.distOutput) (hflags : ∀ par, d'.parOutputReceived.find par =
      if par ∈ cmds.keys then some (site.noted received' t par d') else none)
    (hopen : site.parId ∈ cmds.keys → (d.parOutputReceived.entries.all fun e => e.2) = false)
    (hdone : site.parId ∈ cmds.keys → (d'.parOutputReceived.entries.all fun e => e.2) = true →
      ∀ c ∈ d.pieces, c.localExecuted = true) : Fronted site received' t cmds st' d' := by
  have hreply : d'.reply site t =
      if d'.parOutputReceived.entries.all fun e => e.2 then [.reply t d.distOutput] else [] := by
    rw [TxSlog.reply, hcallback, h.callback, houtput]
  refine ⟨hfound, hcallback.trans h.callback, hpieces ▸ h.ids, houtput ▸ h.outputs, ?_, hflags,
    fun hown => ?_, fun output hin => ?_⟩
  · rw [hpieces, hran, houtput]
    exact h.filed
  · have hzero := h.count hown
    rw [hopen hown, if_neg Bool.false_ne_true] at hzero
    rw [Sched.replies, hsent, countP_append, hreply]
    rw [Sched.replies] at hzero
    rw [hzero, Nat.zero_add]
    split
    · exact countP_singleton.trans (if_pos (decide_eq_true rfl))
    · rfl
  · rw [hsent] at hin
    rw [hran]
    rcases mem_append.mp hin with hin | hin
    · exact h.replied output hin
    · rw [hreply] at hin
      split at hin
      · next hall =>
        cases mem_singleton.mp hin
        refine ⟨h.outputs, fun hown x hx => ?_⟩
        rw [← h.ids] at hx
        obtain ⟨c, hc, rfl⟩ := mem_map.mp hx
        exact h.filed c hc (hdone hown hall c hc)
      · cases hin

theorem not_all_of_flag {par : ℕ} (h : d.parOutputReceived.find par = some false) :
    (d.parOutputReceived.entries.all fun e => e.2) = false :=
  all_eq_false.mpr ⟨(par, false), find_eq_some.mp h, false_ne_true⟩

theorem all_flags_iff : (d.parOutputReceived.entries.all fun e => e.2) = true ↔
    ∀ par b, d.parOutputReceived.find par = some b → b = true := by
  rw [all_eq_true]
  exact ⟨fun h par b hb => h (par, b) (find_eq_some.mp hb),
    fun h e he => h e.1 e.2 (find_eq_some.mpr he)⟩

theorem exists_find_of_not_isEmpty {V : Type} {m : Dict ℕ V} (h : m.isEmpty = false) :
    ∃ x, (m.find x).isSome := by
  obtain ⟨l⟩ := m
  cases l with
  | nil => cases h
  | cons e l => exact ⟨e.1, by rw [Dict.find, lookup_cons, beq_self_eq_true]; rfl⟩

theorem Fronted.isEmpty (hcmds : Chopped cmds) (h : Fronted site received t cmds st d)
    (hall : ∀ c ∈ d.pieces, c.localExecuted = true) :
    d.distOutput.isEmpty = true ↔ site.parId ∉ cmds.keys := by
  constructor
  · intro hempty hown
    obtain ⟨p, hp, hpar⟩ := mem_map.mp hown
    obtain ⟨c, hc⟩ := exists_mem_of_ne_nil _ (hcmds.nonempty p hp)
    have hfind : cmds.find site.parId = some p.2 := find_eq_some.mpr (hpar ▸ hp)
    have hid : c.innId ∈ d.pieces.map innId := by
      rw [h.ids, ownIds, hfind]
      exact mem_map_of_mem hc
    obtain ⟨c', hc', -⟩ := mem_map.mp hid
    obtain ⟨e, -, -, -, hfiled⟩ := h.filed c' hc' (hall c' hc')
    rw [Dict.find_of_isEmpty hempty] at hfiled
    cases hfiled
  · intro hown
    by_contra hne
    obtain ⟨x, hx⟩ := exists_find_of_not_isEmpty (eq_false_of_ne_true hne)
    have hin := h.outputs x hx
    have hnone : cmds.find site.parId = none := by
      cases hfind : cmds.find site.parId with
      | none => rfl
      | some pieces => exact absurd (mem_map_of_mem (find_eq_some.mp hfind)) hown
    rw [ownIds, hnone] at hin
    cases hin

theorem Fronted.finish (hcmds : Chopped cmds) (hs : Sound st)
    (h : Fronted site received t cmds st d) (hopen : d.executed = false)
    (hfin : d.finished = true) : Fronted site received t cmds { st with
      dtxns := st.dtxns.set t (d.finish site)
      sent := st.sent ++ (d.finish site).reply site t } (d.finish site) := by
  have hall := (hs.counted t d h.found).all hfin
  have hempty := h.isEmpty hcmds hall
  refine h.report (Dict.find_set_self _ _ _) rfl rfl rfl rfl rfl (fun par => ?_) (fun hown => ?_)
    fun _ _ => hall
  · have hflag := h.flags par
    rw [TxSlog.finish]
    split
    · next hnone =>
      -- a transaction without pieces here has no note for this partition
      have hown := hempty.mp hnone
      rw [hflag]
      refine ite_congr rfl (fun hin => ?_) fun _ => rfl
      have hne : par ≠ site.parId := fun heq => hown (heq ▸ hin)
      rw [noted, noted, if_neg hne, if_neg hne]
    · next hsome =>
      have hown : site.parId ∈ cmds.keys := not_not.mp fun hno => hsome (hempty.mpr hno)
      dsimp only
      rw [find_set]
      split
      · next heq =>
        rw [heq, if_pos hown, noted, if_pos rfl]
      · next hne =>
        rw [hflag, noted, noted, if_neg hne, if_neg hne]
  · have hflag : d.parOutputReceived.find site.parId = some false := by
      rw [h.flags, if_pos hown, noted, if_pos rfl, hopen]
    exact not_all_of_flag hflag

theorem Fronted.move (hcmds : Chopped cmds) (hs : Sound st) (hm : Move site src st st')
    (h : Fronted site received t cmds st d) : ∃ d', Fronted site received t cmds st' d' := by
  have hnil : ∀ o ∈ ([] : List Out), o.isReply t = false := forall_mem_nil _
  cases hm with
  | @execute j u k e c hat hopen hc hrun _ _ =>
    rcases eq_or_ne t u with rfl | hne
    · obtain rfl : d = e := some.inj (h.found.symm.trans hat.2)
      exact h.execute hcmds hc
    · exact ⟨d, h.frame ((Dict.find_set_ne _ hne _).trans h.found) rfl
        (append_nil _).symm hnil⟩
  | @finish j u e hat hopen hall =>
    rcases eq_or_ne t u with rfl | hne
    · obtain rfl : d = e := some.inj (h.found.symm.trans hat.2)
      exact ⟨_, h.finish hcmds hs hopen hall⟩
    · exact ⟨d, h.frame ((Dict.find_set_ne _ hne _).trans h.found) (append_nil _).symm rfl
        (reply_other site hne.symm _)⟩
  | send out hout =>
    refine ⟨d, h.frame h.found (append_nil _).symm rfl fun o ho => ?_⟩
    obtain ⟨par, u, values, rfl⟩ := hout o ho
    rfl
  | @merge u e values pending hd _ _ =>
    rcases eq_or_ne t u with rfl | hne
    · obtain rfl : d = e := some.inj (h.found.symm.trans hd)
      refine ⟨d.merge values, Dict.find_set_self _ _ _, h.callback, ?_, h.outputs,
        fun c' hc' hx => ?_, h.flags, h.count, h.replied⟩
      · rw [merge_pieces, map_map, ← h.ids]
        exact map_congr_left fun c _ => innId_offers c _
      · rw [merge_pieces] at hc'
        obtain ⟨c, hc, rfl⟩ := mem_map.mp hc'
        rw [localExecuted_offers] at hx
        rw [innId_offers]
        exact h.filed c hc hx
    · exact ⟨d, h.frame ((Dict.find_set_ne _ hne _).trans h.found) (append_nil _).symm
        (append_nil _).symm hnil⟩
  | @enter u e hno hnew _ =>
    have hne : t ≠ u := fun heq => by
      rw [← heq, h.found] at hno
      cases hno
    exact ⟨d, h.frame ((Dict.find_set_ne _ hne _).trans h.found) (append_nil _).symm
      (append_nil _).symm hnil⟩
  | _ => exact ⟨d, h.frame h.found (append_nil _).symm (append_nil _).symm hnil⟩

end

/-! ### Runs -/

section

variable {DB : Type} {site : Site DB} {src : Supply} {received : List (ℕ × ℕ × TxnOutput)}
  {t u par par0 : ℕ} {cmds : Cmds} {st st' : Served DB} {s s' : Sched DB} {d : TxSlog}
  {output : TxnOutput}

theorem noted_append (site : Site DB) (received : List (ℕ × ℕ × TxnOutput))
    (t par : ℕ) (d : TxSlog) (u par0 : ℕ) (output : TxnOutput) :
    site.noted (received ++ [(u, par0, output)]) t par d =
      (site.noted received t par d || decide (par ≠ site.parId ∧ u = t ∧ par0 = par)) := by
  rw [noted, noted]
  split
  · next heq => simp [heq]
  · next hne => simp [hne]

theorem Fronted.more (h : Fronted site received t cmds s d) {received' : List (ℕ × ℕ × TxnOutput)}
    (hsame : ∀ par ∈ cmds.keys, site.noted received' t par d = site.noted received t par d) :
    Fronted site received' t cmds s d where
  found := h.found
  callback := h.callback
  ids := h.ids
  outputs := h.outputs
  filed := h.filed
  flags par := by
    rw [h.flags par]
    exact ite_congr rfl (fun hin => by rw [hsame par hin]) fun _ => rfl
  count := h.count
  replied := h.replied

theorem Fronted.receive (hs : Sound s) (h : Fronted site received t cmds s d)
    (hpar : d.parOutputReceived.find par = some false) (hother : par ≠ site.parId)
    (output : TxnOutput) :
    Fronted site (received ++ [(t, par, output)]) t cmds (s.receive site t par d)
      (d.receive par) := by
  refine h.report (Dict.find_set_self _ _ _) rfl rfl rfl rfl rfl (fun q => ?_)
    (fun _ => not_all_of_flag hpar) fun hown hall => ?_
  · have hnoted : site.noted (received ++ [(t, par, output)]) t q (d.receive par) =
        (site.noted received t q d || decide (q ≠ site.parId ∧ t = t ∧ par = q)) :=
      noted_append site received t q (d.receive par) t par output
    rw [hnoted, TxSlog.receive, find_set]
    have hflag := h.flags q
    split
    · next heq =>
      have hin : par ∈ cmds.keys := by
        by_contra hno
        rw [h.flags par, if_neg hno] at hpar
        cases hpar
      rw [heq, if_pos hin, decide_eq_true ⟨hother, rfl, rfl⟩, Bool.or_true]
    · next hne =>
      rw [hflag, decide_eq_false fun hq => hne hq.2.2.symm, Bool.or_false]
  · -- this partition's note is set only when the transaction is executed
    have hflag : (d.receive par).parOutputReceived.find site.parId = some d.executed := by
      rw [TxSlog.receive, find_set_ne _ hother.symm, h.flags, if_pos hown, noted,
        if_pos rfl]
    exact (hs.counted t d h.found).complete (all_flags_iff.mp hall _ _ hflag)

structure ServedInv (site : Site DB) (st : Served DB) : Prop where
  sound : Sound st.sched
  known : ∀ m ∈ st.received, ∃ d, st.sched.dtxns.find m.1 = some d
  answered : ∀ t output, reply t output ∈ st.sched.sent → ∃ d, st.sched.dtxns.find t = some d
  fronted : ∀ t cmds, st.submitted.find t = some cmds → Chopped cmds ∧ cmds.entries ≠ [] ∧
    ∃ d, Fronted site st.received t cmds st.sched d

theorem ServedInv.init (site : Site DB) (db : DB) : ServedInv site { sched := { db := db } } where
  sound := Sound.init db
  known := forall_mem_nil _
  answered t output h := absurd h not_mem_nil
  fronted t cmds h := by cases h

theorem answered_of_reply (hans : ∀ t output, reply t output ∈ s.sent →
    ∃ d, s.dtxns.find t = some d) (hon : Onward s s') {out : List Out}
    (hsent : s'.sent = s.sent ++ out)
    (hout : ∀ o ∈ out, o.isReply t = true → ∃ d, s'.dtxns.find t = some d)
    (hin : reply t output ∈ s'.sent) : ∃ d, s'.dtxns.find t = some d := by
  rw [hsent] at hin
  rcases mem_append.mp hin with hin | hin
  · obtain ⟨d, hd⟩ := hans t output hin
    obtain ⟨d', hd', -⟩ := hon.records t d hd
    exact ⟨d', hd'⟩
  · exact hout _ hin (decide_eq_true rfl)

theorem reply_isReply (site : Site DB) (d : TxSlog) (u : ℕ) {o : Out} (ho : o ∈ d.reply site u)
    (ht : o.isReply t = true) : u = t := by
  by_contra hne
  rw [reply_other site hne d o ho] at ht
  cases ht

theorem answered_move (hm : Move site src s s')
    (h : ∀ t output, reply t output ∈ s.sent → ∃ d, s.dtxns.find t = some d) :
    ∀ t output, reply t output ∈ s'.sent → ∃ d, s'.dtxns.find t = some d := by
  intro t output hin
  have hon := hm.onward
  have hnil : ∀ o ∈ ([] : List Out), o.isReply t = true → ∃ d, s'.dtxns.find t = some d :=
    forall_mem_nil _
  cases hm with
  | finish hat =>
    refine answered_of_reply h hon rfl (fun o ho ht => ?_) hin
    rw [← reply_isReply site _ _ ho ht]
    exact ⟨_, Dict.find_set_self _ _ _⟩
  | send out hout =>
    refine answered_of_reply h hon rfl (fun o ho ht => ?_) hin
    obtain ⟨par, u, values, rfl⟩ := hout o ho
    cases ht
  | _ => exact answered_of_reply h hon (append_nil _).symm hnil hin

section
variable (h : ServedInv site st)
include h

theorem ServedInv.moves (hm : Moves site src st.sched s) :
    ServedInv site { st with sched := s } where
  sound := h.sound.moves hm
  known m hin := by
    obtain ⟨d, hd⟩ := h.known m hin
    obtain ⟨d', hd', -⟩ := (moves_onward hm).records _ d hd
    exact ⟨d', hd'⟩
  answered := moves_inv (fun _ _ _ h hm => answered_move hm h) h.sound h.answered hm
  fronted t cmds hsub := by
    obtain ⟨hcmds, hne, hfront⟩ := h.fronted t cmds hsub
    refine ⟨hcmds, hne, moves_inv (I := fun s => ∃ d, Fronted site st.received t cmds s d)
      (fun s s' hs hd hm => ?_) h.sound hfront hm⟩
    obtain ⟨d, hd⟩ := hd
    exact hd.move hcmds hs hm

theorem fronted_new (hno : st.sched.dtxns.find t = none) (hnew : d.New)
    (hids : d.pieces.map innId = site.ownIds cmds) (hcallback : d.callback = .client)
    (hflags : ∀ par, d.parOutputReceived.find par = if par ∈ cmds.keys then some false else none) :
    Fronted site st.received t cmds { st.sched with dtxns := st.sched.dtxns.set t d } d := by
  have hunknown : ∀ {P : Prop}, (∃ d, st.sched.dtxns.find t = some d) → P := by
    rintro P ⟨e, he⟩
    rw [hno] at he
    cases he
  refine ⟨Dict.find_set_self _ _ _, hcallback, hids, fun x hx => ?_, fun c hc hx => ?_, fun par => ?_,
    fun hown => ?_, fun output hin => hunknown (h.answered t output hin)⟩
  · rw [hnew.distOutput] at hx
    cases hx
  · rw [hnew.pieces c hc] at hx
    cases hx
  · have hnoted : site.noted st.received t par d = false := by
      rw [noted]
      split
      · exact hnew.executed
      · refine any_eq_false.mpr fun m hm hmt => hunknown ?_
        rw [← (of_decide_eq_true hmt).1]
        exact h.known m hm
    rw [hflags, hnoted]
  · have hflag : d.parOutputReceived.find site.parId = some false := by rw [hflags, if_pos hown]
    rw [not_all_of_flag hflag, if_neg Bool.false_ne_true]
    refine countP_eq_zero.mpr fun o ho hreply => ?_
    cases o with
    | reply u output =>
      rw [of_decide_eq_true hreply] at ho
      exact hunknown (h.answered t output ho)
    | txnOutput | depValues => cases hreply

theorem onSubmitTxn_fronted (hfresh : Fresh site st.sched (.submitTxn cmds))
    (hs : st.sched.onSubmitTxn site cmds = some s) :
    ∃ t, site.txnId cmds = some t ∧ cmds.entries ≠ [] ∧
      ∃ d, Fronted site st.received t cmds s d := by
  obtain ⟨c, hc, hno, rfl⟩ := onSubmitTxn_eq hfresh hs
  refine ⟨site.rootId c, by rw [txnId, hc]; rfl, fun hnil => ?_, _,
    fronted_new h hno (submit_new site cmds _) ?_ rfl fun par => find_foldl_set (fun _ => false) _ _⟩
  · rw [hnil] at hc
    cases hc
  · show ((site.newTx _).own site cmds).pieces.map innId = site.ownIds cmds
    rw [TxSlog.own, ownIds]
    cases cmds.find site.parId with
    | none => rfl
    | some pieces => exact map_map

/-- An output comes; it changes the notes of its transaction alone. -/
theorem ServedInv.reported (hother : par ≠ site.parId)
    (hs : st.sched.onSendTxnOutput site u par output = some s) :
    ServedInv site { st with sched := s, received := st.received ++ [(u, par, output)] } := by
  obtain ⟨e, he, hcases⟩ := onSendTxnOutput_cases output hs
  -- another transaction's notes stay
  have hothers : ∀ t ≠ u, ∀ q d,
      site.noted (st.received ++ [(u, par, output)]) t q d = site.noted st.received t q d := by
    intro t hne q d
    rw [noted_append, decide_eq_false fun hq => hne hq.2.1.symm, Bool.or_false]
  have hknown : ∀ {s : Sched DB}, Onward st.sched s → ∀ m ∈ st.received ++ [(u, par, output)],
      ∃ d, s.dtxns.find m.1 = some d := by
    intro s hon m hm
    obtain ⟨d, hd⟩ := forall_mem_concat h.known ⟨e, he⟩ m hm
    obtain ⟨d', hd', -⟩ := hon.records _ d hd
    exact ⟨d', hd'⟩
  rcases hcases with ⟨hflag, rfl⟩ | ⟨hflag, rfl⟩
  · refine ⟨h.sound, hknown (Onward.refl _), h.answered, fun t cmds hsub => ?_⟩
    obtain ⟨hcmds, hne, d, hd⟩ := h.fronted t cmds hsub
    refine ⟨hcmds, hne, d, hd.more fun q hq => ?_⟩
    rcases eq_or_ne t u with rfl | htu
    · -- the note was set before
      obtain rfl : d = e := some.inj (hd.found.symm.trans he)
      rw [noted_append]
      rcases eq_or_ne par q with rfl | hpq
      · rw [hd.flags, if_pos hq] at hflag
        rw [some.inj hflag, Bool.true_or]
      · rw [decide_eq_false fun hq => hpq hq.2.2, Bool.or_false]
    · exact hothers t htu q d
  · refine ⟨h.sound.receive he, hknown (onward_receive he), fun t output hin => ?_,
      fun t cmds hsub => ?_⟩
    · refine answered_of_reply h.answered (onward_receive he) rfl (fun o ho ht => ?_) hin
      rw [← reply_isReply site _ _ ho ht]
      exact ⟨_, Dict.find_set_self _ _ _⟩
    · obtain ⟨hcmds, hne, d, hd⟩ := h.fronted t cmds hsub
      refine ⟨hcmds, hne, ?_⟩
      rcases eq_or_ne t u with rfl | htu
      · obtain rfl : d = e := some.inj (hd.found.symm.trans he)
        exact ⟨_, hd.receive h.sound hflag hother output⟩
      · have hframe : Fronted site st.received t cmds (st.sched.receive site u par e) d :=
          hd.frame ((Dict.find_set_ne _ htu _).trans hd.found) (append_nil _).symm rfl
            (reply_other site htu.symm _)
        exact ⟨d, hframe.more fun q _ => hothers t htu q d⟩

theorem ServedInv.step {ev : SiteEvent} (hev : Incoming site st ev)
    (hs : servedStep site st ev = some st') : ServedInv site st' := by
  obtain ⟨s, hsite, hst'⟩ := Option.map_eq_some_iff.mp hs
  cases ev with
  | submitTxn cmds =>
    have hmoves := h.moves (onSubmitTxn_moves hev.1 (any_allows site st.sched (.submitTxn cmds)) hsite)
    obtain ⟨t, ht, hne, hfront⟩ := onSubmitTxn_fronted h hev.1 hsite
    subst hst'
    refine ⟨hmoves.sound, hmoves.known, hmoves.answered, fun u cmds' hsub => ?_⟩
    dsimp only at hsub
    rw [ht] at hsub
    dsimp only at hsub
    rw [Dict.find_set] at hsub
    split at hsub
    · next heq =>
      obtain rfl := some.inj hsub
      exact ⟨hev.2, hne, heq ▸ hfront⟩
    · exact hmoves.fronted u cmds' hsub
  | sendBatch b =>
    subst hst'
    exact h.moves (onSendBatch_moves hev.1 (any_allows site st.sched (.sendBatch b))
      (ok_of_toOption hsite) h.sound (any_pending st.sched))
  | sendDepValues u values =>
    subst hst'
    obtain rfl := some.inj hsite
    exact h.moves (onSendDepValues_moves h.sound
      (any_allows site st.sched (.sendDepValues u values)))
  | sendTxnOutput u par output =>
    subst hst'
    exact h.reported hev.2 hsite

end

/-! ### The reply -/

theorem hasReported_iff (hd : Fronted site st.received t cmds st.sched d) :
    st.HasReported site t par ↔ site.noted st.received t par d = true := by
  rw [Served.HasReported, noted]
  split
  · constructor
    · rintro ⟨e, he, hx⟩
      rw [some.inj (hd.found.symm.trans he)]
      exact hx
    · exact fun hx => ⟨d, hd.found, hx⟩
  · rw [any_eq_true]
    constructor
    · rintro ⟨output, hin⟩
      exact ⟨_, hin, decide_eq_true ⟨rfl, rfl⟩⟩
    · rintro ⟨⟨t', par', output⟩, hin, heq⟩
      obtain ⟨rfl, rfl⟩ := of_decide_eq_true heq
      exact ⟨output, hin⟩

theorem repliedOnce_of_fronted (hd : Fronted site st.received t cmds st.sched d)
    (hown : site.parId ∈ cmds.keys) : st.RepliedOnce site t cmds := by
  have hall : (d.parOutputReceived.entries.all fun e => e.2) = true ↔
      ∀ par ∈ cmds.keys, st.HasReported site t par := by
    rw [all_flags_iff]
    constructor
    · intro h par hpar
      rw [hasReported_iff hd]
      exact h par _ (by rw [hd.flags, if_pos hpar])
    · intro h par b hb
      rw [hd.flags] at hb
      split at hb
      · next hpar =>
        rw [← some.inj hb]
        exact (hasReported_iff hd).mp (h par hpar)
      · cases hb
  have hcount := hd.count hown
  refine ⟨?_, ?_⟩
  · rw [hcount]
    split
    · exact le_rfl
    · exact Nat.zero_le 1
  · rw [hcount, ← hall]
    split
    · next h => exact iff_of_true rfl h
    · next h => exact iff_of_false Nat.zero_ne_one h

theorem keys_cases (hcmds : Chopped cmds) (hne : cmds.entries ≠ []) :
    (∃ pieces, cmds.entries = [(site.parId, pieces)]) ∨
      (cmds.keys ≠ [site.parId] ∧ ∃ p ∈ cmds.entries, ∃ c ∈ p.2, c.innId ∉ site.ownIds cmds) := by
  by_cases hother : ∃ p ∈ cmds.entries, p.1 ≠ site.parId
  · obtain ⟨p, hp, hpar⟩ := hother
    refine .inr ⟨fun hkeys => hpar ?_, p, hp, ?_⟩
    · have hin : p.1 ∈ cmds.keys := mem_map_of_mem hp
      rw [hkeys] at hin
      exact mem_singleton.mp hin
    · obtain ⟨c, hc⟩ := exists_mem_of_ne_nil _ (hcmds.nonempty p hp)
      refine ⟨c, hc, fun hin => ?_⟩
      -- the piece would have the `inn_id` of one of this partition
      rw [ownIds] at hin
      cases hfind : cmds.find site.parId with
      | none =>
        rw [hfind] at hin
        cases hin
      | some pieces =>
        rw [hfind] at hin
        have hq := find_eq_some.mp hfind
        have hdisj := (nodup_flatMap.mp hcmds.nodup).2
        have : Std.Symm (Function.onFun List.Disjoint fun p : ℕ × List SimpleCommand =>
            p.2.map innId) := ⟨fun _ _ h => h.symm⟩
        have hpq : (p.2.map innId).Disjoint (pieces.map innId) :=
          hdisj.forall hp hq fun heq => hpar (congrArg Prod.fst heq)
        exact hpq (mem_map_of_mem hc) hin
  · left
    have hall : ∀ p ∈ cmds.entries, p.1 = site.parId := fun p hp =>
      not_not.mp fun hne => hother ⟨p, hp, hne⟩
    cases hentries : cmds.entries with
    | nil => exact absurd hentries hne
    | cons p l =>
      have hsorted := cmds.sorted
      rw [hentries] at hall hsorted
      cases l with
      | nil => exact ⟨p.2, by rw [← hall p mem_cons_self]⟩
      | cons q l =>
        have hlt := (pairwise_cons.mp hsorted).1 q mem_cons_self
        rw [hall p mem_cons_self, hall q (mem_cons_of_mem _ mem_cons_self)] at hlt
        exact absurd hlt (lt_irrefl _)

theorem complete_iff (hcmds : Chopped cmds) (hne : cmds.entries ≠ [])
    (hd : Fronted site st.received t cmds st.sched d) (hin : reply t output ∈ st.sched.sent) :
    st.Complete site t cmds output ↔ cmds.keys = [site.parId] := by
  obtain ⟨honly, hall⟩ := hd.replied output hin
  rcases keys_cases hcmds hne with ⟨pieces, hentries⟩ | ⟨hkeys, p, hp, c, hc, hno⟩
  · have hkeys : cmds.keys = [site.parId] := by rw [OrdMap.keys, hentries]; rfl
    refine iff_of_true (fun p hp c hc => ?_) hkeys
    have hfind : cmds.find site.parId = some pieces :=
      find_eq_some.mpr (hentries ▸ mem_cons_self)
    rw [hentries, mem_singleton] at hp
    subst hp
    have hown : c.innId ∈ site.ownIds cmds := by
      rw [ownIds, hfind]
      exact mem_map_of_mem hc
    obtain ⟨e, he, het, hex, hfiled⟩ := hall (hkeys ▸ mem_cons_self) _ hown
    refine ⟨e.output, hfiled, ?_⟩
    rw [Served.Reported, if_pos rfl]
    exact ⟨e, he, het, hex, rfl⟩
  · refine iff_of_false (fun hcomplete => hno ?_) hkeys
    obtain ⟨out, hout, -⟩ := hcomplete p hp c hc
    exact honly _ (by rw [hout]; rfl)

/-- A transaction with pieces at its coordinating site is replied once, when all partitions have
    reported. What is returned is complete exactly if it touches no other partition. -/
theorem reply_complete_iff (site : Site DB) (db : DB) (evs : List SiteEvent)
    (hevs : Along (servedStep site) (Incoming site) { sched := { db := db } } evs) :
    Throughout (servedStep site) (fun st => ∀ t cmds, st.submitted.find t = some cmds →
      (site.parId ∈ cmds.keys → st.RepliedOnce site t cmds) ∧
      ∀ output, reply t output ∈ st.sched.sent →
        (st.Complete site t cmds output ↔ cmds.keys = [site.parId]))
      { sched := { db := db } } evs := by
  refine throughout_mono (fun st h t cmds hsub => ?_) (throughout_of_inv
    (fun _ _ _ h hC hs => h.step hC hs) (ServedInv.init site db) hevs)
  obtain ⟨hcmds, hne, d, hd⟩ := h.fronted t cmds hsub
  exact ⟨repliedOnce_of_fronted hd, fun output hin => complete_iff hcmds hne hd hin⟩

end

instance (cmds : Cmds) : Decidable (Chopped cmds) :=
  decidable_of_iff ((∀ p ∈ cmds.entries, p.2 ≠ []) ∧
    (cmds.entries.flatMap fun p => p.2.map innId).Nodup)
    ⟨fun h => ⟨h.1, h.2⟩, fun h => ⟨h.nonempty, h.nodup⟩⟩

instance decidableIncoming {DB : Type} (site : Site DB) (st : Served DB) :
    ∀ ev, Decidable (Incoming site st ev)
  | .submitTxn cmds => inferInstanceAs (Decidable (Fresh site st.sched (.submitTxn cmds) ∧ Chopped cmds))
  | .sendBatch b => inferInstanceAs (Decidable (Fresh site st.sched (.sendBatch b) ∧ True))
  | .sendDepValues _ _ => isTrue ⟨trivial, trivial⟩
  | .sendTxnOutput _ par _ => inferInstanceAs (Decidable (True ∧ par ≠ site.parId))

/-- A site of partition 0 whose pieces return variable 4. -/
def fronting : Site Unit where
  siteId := 1
  parId := 0
  rootId _ := 10
  handler _ _ _ _ := (⟨[(4, .i32 8)]⟩, ())

/-- The batch that brings transaction 10 back to the site it was submitted to. -/
def frontedBatch : Batch where
  startIndex := 0
  cmds := [(10, [])]
  coordSites := [(10, 1)]
  allTouchedShards := [(10, [0])]

/-- A transaction with a piece at partition 0 and one at partition 1. -/
def twoTouched : Cmds := onePiece.set 1 [{ innId := 2, type := 1 }]

/-- With one partition the reply is complete. -/
theorem reply_complete_own :
    Along (servedStep fronting) (Incoming fronting) { sched := { db := () } }
      [.submitTxn onePiece, .sendBatch frontedBatch] ∧
    (run (servedStep fronting) { sched := { db := () } }
      [.submitTxn onePiece, .sendBatch frontedBatch]).map (·.sched.sent) =
        some [.reply 10 ⟨[(1, ⟨[(4, .i32 8)]⟩)]⟩] ∧
    Throughout (servedStep fronting) (fun st => ∀ t cmds, st.submitted.find t = some cmds →
      (fronting.parId ∈ cmds.keys → st.RepliedOnce fronting t cmds) ∧
      ∀ output, reply t output ∈ st.sched.sent →
        (st.Complete fronting t cmds output ↔ cmds.keys = [fronting.parId]))
      { sched := { db := () } } [.submitTxn onePiece, .sendBatch frontedBatch] :=
  ⟨by decide, by decide, reply_complete_iff fronting () _ (by decide)⟩

/-- With two, the output of the second one comes and is not in the reply. -/
theorem reply_lacks_output :
    Along (servedStep fronting) (Incoming fronting) { sched := { db := () } }
      [.submitTxn twoTouched, .sendBatch frontedBatch,
        .sendTxnOutput 10 1 ⟨[(2, ⟨[(4, .i32 9)]⟩)]⟩] ∧
    ∃ st, run (servedStep fronting) { sched := { db := () } }
        [.submitTxn twoTouched, .sendBatch frontedBatch,
          .sendTxnOutput 10 1 ⟨[(2, ⟨[(4, .i32 9)]⟩)]⟩] = some st ∧
      st.submitted.find 10 = some twoTouched ∧
      st.sched.sent = [.reply 10 ⟨[(1, ⟨[(4, .i32 8)]⟩)]⟩] ∧
      ¬ st.Complete fronting 10 twoTouched ⟨[(1, ⟨[(4, .i32 8)]⟩)]⟩ := by
  refine ⟨by decide, _, rfl, by decide, by decide, fun hcomplete => ?_⟩
  obtain ⟨out, hout, -⟩ := hcomplete (1, [{ innId := 2, type := 1 }]) (by decide) _ mem_cons_self
  cases hout

end Fiss.Slog
