import Fiss.Schemes.Runs

/-! The queue of an asynchronous lock, as the two kinds of lock share it: requests in the order they
    came, those at the front granted. A failed `verify` makes an operation return nothing. The
    callbacks do not call the lock again; the ids of the requests whose yes callback and whose no
    callback was called are kept. The end of a lock (`done_`) is left out. -/

namespace Fiss.Alock
open List Bool Nat

inductive LockType where
  | rlock
  | wlock
  deriving DecidableEq

/-- A request; `granted` is the status `LOCK`. -/
structure Req where
  id : ℕ
  priority : ℤ
  type : LockType
  granted : Bool := false
  deriving DecidableEq

inductive Status where
  | free
  | wlocked
  | rlocked
  deriving DecidableEq

structure ALock where
  requests : List Req := []
  status : Status := .free
  nRlock : ℤ := 0
  nextId : ℕ := 1
  /-- the calls of yes callbacks -/
  yes : List ℕ := []
  /-- the calls of no callbacks -/
  no : List ℕ := []

def Req.grant (r : Req) : Req := { r with granted := true }

def Req.isReader (r : Req) : Bool := r.type = .rlock

/-- What a request is, granted or not. -/
def Req.key (r : Req) : ℕ × ℤ × LockType := (r.id, r.priority, r.type)

namespace ALock

/-- `write_acquire` of the request between the others. -/
def writeAcquire (before : List Req) (r : Req) (after : List Req) (s : ALock) : Option ALock :=
  if r.type = .wlock ∧ r.granted = false then
    some { s with
      status := .wlocked
      requests := before ++ r.grant :: after
      yes := s.yes ++ [r.id] }
  else none

/-- `read_acquire` of the requests between the others. -/
def readAcquire (before batch after : List Req) (s : ALock) : Option ALock :=
  if batch.isEmpty then some { s with requests := before ++ after }
  else if batch.all fun r => r.isReader && !r.granted then
    some { s with
      status := if s.nRlock = 0 then .rlocked else s.status
      nRlock := s.nRlock + batch.length
      requests := before ++ (batch.map Req.grant ++ after)
      yes := s.yes ++ batch.map Req.id }
  else none

/-- The readers at the front of a list of requests are granted. -/
def acquireReaders (before after : List Req) (s : ALock) : Option ALock :=
  s.readAcquire before (after.takeWhile Req.isReader) (after.dropWhile Req.isReader)

/-- The lock is free, if nothing is left before the request. -/
def setFree (before : List Req) (s : ALock) : Option ALock :=
  if before.isEmpty then some { s with status := .free } else none

/-- `abort` of a request that waits, which is between the others. -/
def abortWaiting (before : List Req) (r : Req) (after : List Req) (s : ALock) : Option ALock :=
  if r.type = .wlock ∧ before.all Req.isReader then
    if s.status = .rlocked then acquireReaders before after s else none
  else some { s with requests := before ++ after }

/-- `abort` of a granted reader. -/
def unlockRead (before after : List Req) (s : ALock) : Option ALock :=
  let s : ALock := { s with requests := before ++ after, nRlock := s.nRlock - 1 }
  if s.nRlock = 0 then
    match after with
    | [] => s.setFree before
    | q :: after => s.writeAcquire before q after
  else some s

/-- `abort` of a granted writer. -/
def unlockWrite (before after : List Req) (s : ALock) : Option ALock :=
  let s : ALock := { s with requests := before ++ after }
  match after with
  | [] => s.setFree before
  | q :: rest =>
    if q.type = .wlock then s.writeAcquire before q rest
    else (s.acquireReaders before after).bind fun s => if s.status = .rlocked then some s else none

def abort (id : ℕ) (s : ALock) : Option ALock :=
  match s.requests.dropWhile (·.id ≠ id) with
  | [] => some s
  | r :: after =>
    let before := s.requests.takeWhile (·.id ≠ id)
    if r.granted then if r.isReader then s.unlockRead before after else s.unlockWrite before after
    else (s.abortWaiting before r after).map fun s => { s with no := s.no ++ [r.id] }

/-! ### What holds of the queue -/

/-- The requests that hold the lock are the longest front of the queue that may hold it together:
    one writer, or readers with no reader next. -/
inductive Holds : Status → List Req → List Req → Prop
  | free : Holds .free [] []
  | write {w : Req} {waiting : List Req} (hw : w.type = .wlock) : Holds .wlocked [w] waiting
  | read {held waiting : List Req} (hne : held ≠ []) (hreaders : ∀ q ∈ held, q.type = .rlock)
      (hnext : ∀ q ∈ waiting.head?, q.type = .wlock) : Holds .rlocked held waiting

/-- The queue is what holds the lock, granted, and what waits. -/
structure Queue (s : ALock) (held waiting : List Req) : Prop where
  requests : s.requests = held ++ waiting
  granted : ∀ q ∈ held, q.granted = true
  waits : ∀ q ∈ waiting, q.granted = false
  holds : Holds s.status held waiting
  nRlock : s.nRlock = held.countP Req.isReader

/-- The callbacks: each request has had its answer once at most, those in the queue that are granted
    the yes and the others none. -/
structure Calls (requests : List Req) (next : ℕ) (yes no : List ℕ) : Prop where
  ids : (requests.map Req.id).Nodup
  fresh : ∀ q ∈ requests, q.id < next
  yesFresh : ∀ i ∈ yes, i < next
  noFresh : ∀ i ∈ no, i < next
  granted : ∀ q ∈ requests, q.granted = true ↔ q.id ∈ yes
  kept : ∀ q ∈ requests, q.id ∉ no
  yesOnce : yes.Nodup
  noOnce : no.Nodup
  apart : yes.Disjoint no

/-- The invariant of the lock. -/
structure Inv (s : ALock) : Prop where
  queue : ∃ held waiting, Queue s held waiting
  calls : Calls s.requests s.nextId s.yes s.no

/-- An operation returns a lock whose requests are these, granted or not. -/
abbrev Leaves (r : Option ALock) (requests : List Req) : Prop :=
  ∃ s, r = some s ∧ Inv s ∧ s.requests.map Req.key = requests.map Req.key

/-! ### Callbacks -/

section

variable {requests requests' batch before after : List Req} {next : ℕ} {yes no : List ℕ} {r : Req}

theorem Calls.sublist (h : Calls requests next yes no) (hsub : requests'.Sublist requests) :
    Calls requests' next yes no where
  ids := (hsub.map Req.id).nodup h.ids
  fresh q hq := h.fresh q (hsub.subset hq)
  yesFresh := h.yesFresh
  noFresh := h.noFresh
  granted q hq := h.granted q (hsub.subset hq)
  kept q hq := h.kept q (hsub.subset hq)
  yesOnce := h.yesOnce
  noOnce := h.noOnce
  apart := h.apart

theorem map_id_grant (batch : List Req) : (batch.map Req.grant).map Req.id = batch.map Req.id := by
  rw [map_map]
  rfl

/-- Requests that wait are granted. -/
theorem Calls.grant (before batch : List Req) (h : Calls (before ++ (batch ++ after)) next yes no)
    (hwaits : ∀ q ∈ batch, q.granted = false) :
    Calls (before ++ (batch.map Req.grant ++ after)) next (yes ++ batch.map Req.id) no := by
  have hids : (before ++ (batch.map Req.grant ++ after)).map Req.id =
      (before ++ (batch ++ after)).map Req.id := by
    simp only [map_append, map_id_grant]
  have hmem : ∀ q ∈ before ++ (batch.map Req.grant ++ after),
      ∃ q' ∈ before ++ (batch ++ after), q'.id = q.id := by
    intro q hq
    exact mem_map.mp (hids ▸ mem_map_of_mem hq)
  have hnew : ∀ i ∈ batch.map Req.id, i ∉ yes := by
    intro i hi hyes
    obtain ⟨q, hq, rfl⟩ := mem_map.mp hi
    have hgranted := (h.granted q (by simp [hq])).mpr hyes
    rw [hwaits q hq] at hgranted
    cases hgranted
  have hnodup := h.ids
  simp only [map_append, nodup_append, mem_append] at hnodup
  obtain ⟨hbefore, ⟨hbatch, hafter, hba⟩, hbb⟩ := hnodup
  refine ⟨hids ▸ h.ids, fun q hq => ?_, fun i hi => ?_, h.noFresh, fun q hq => ?_, fun q hq => ?_,
    ?_, h.noOnce, ?_⟩
  · obtain ⟨q', hq', heq⟩ := hmem q hq
    exact heq ▸ h.fresh q' hq'
  · rcases mem_append.mp hi with hi | hi
    · exact h.yesFresh i hi
    · obtain ⟨q, hq, rfl⟩ := mem_map.mp hi
      exact h.fresh q (by simp [hq])
  · rw [mem_append]
    rcases mem_append.mp hq with hq | hq
    · have hother : q.id ∉ batch.map Req.id := fun hin =>
        hbb q.id (mem_map_of_mem hq) q.id (.inl hin) rfl
      rw [or_iff_left hother]
      exact h.granted q (by simp [hq])
    · rcases mem_append.mp hq with hq | hq
      · obtain ⟨q', hq', rfl⟩ := mem_map.mp hq
        exact iff_of_true rfl (.inr (mem_map.mpr ⟨q', hq', rfl⟩))
      · have hother : q.id ∉ batch.map Req.id := fun hin =>
          hba q.id hin q.id (mem_map_of_mem hq) rfl
        rw [or_iff_left hother]
        exact h.granted q (by simp [hq])
  · obtain ⟨q', hq', heq⟩ := hmem q hq
    exact heq ▸ h.kept q' hq'
  · refine nodup_append.mpr ⟨h.yesOnce, hbatch, fun a ha b hb hab => ?_⟩
    exact hnew b hb (hab ▸ ha)
  · refine disjoint_append_left.mpr ⟨h.apart, fun i hi hno => ?_⟩
    obtain ⟨q, hq, rfl⟩ := mem_map.mp hi
    exact h.kept q (by simp [hq]) hno

theorem Calls.reject (h : Calls requests next yes no) {i : ℕ} (hlt : i < next) (hyes : i ∉ yes)
    (hno : i ∉ no) (hgone : ∀ q ∈ requests, q.id ≠ i) : Calls requests next yes (no ++ [i]) := by
  refine { h with
    noFresh := forall_mem_concat h.noFresh hlt
    kept := fun q hq hin => ?_
    noOnce := ?_
    apart := ?_ }
  · rcases mem_append.mp hin with hin | hin
    · exact h.kept q hq hin
    · exact hgone q hq (mem_singleton.mp hin)
  · refine nodup_append.mpr ⟨h.noOnce, nodup_singleton i, fun a ha b hb hab => ?_⟩
    rw [mem_singleton.mp hb] at hab
    exact hno (hab ▸ ha)
  · refine disjoint_append_right.mpr ⟨h.apart, ?_⟩
    exact disjoint_singleton.mpr hyes

theorem mem_middle {q : Req} (hq : q ∈ before ++ after) (r : Req) : q ∈ before ++ r :: after :=
  mem_append.mpr ((mem_append.mp hq).imp_right (mem_cons_of_mem r))

theorem Calls.remove (h : Calls (before ++ r :: after) next yes no) (hr : r.granted = false) :
    Calls (before ++ after) next yes (no ++ [r.id]) := by
  have hmem : r ∈ before ++ r :: after := mem_append_right _ mem_cons_self
  have hcalls := h.sublist ((sublist_cons_self r after).append_left before)
  refine hcalls.reject (h.fresh r hmem) (fun hyes => ?_) (h.kept r hmem) fun q hq heq => ?_
  · have hgranted := (h.granted r hmem).mpr hyes
    rw [hr] at hgranted
    cases hgranted
  · have hids := h.ids
    rw [map_append, map_cons, nodup_middle, ← map_append] at hids
    exact (nodup_cons.mp hids).1 (heq ▸ mem_map_of_mem hq)

theorem Calls.tick (h : Calls requests next yes no) : Calls requests (next + 1) yes no :=
  { h with
    fresh := fun q hq => (h.fresh q hq).trans (lt_succ_self _)
    yesFresh := fun i hi => (h.yesFresh i hi).trans (lt_succ_self _)
    noFresh := fun i hi => (h.noFresh i hi).trans (lt_succ_self _) }

theorem Calls.push (h : Calls requests next yes no) (hid : r.id = next) (hwaits : r.granted = false) :
    Calls (requests ++ [r]) (next + 1) yes no := by
  have hnew : r.id ∉ yes ∧ r.id ∉ no :=
    ⟨fun hin => (h.yesFresh _ hin).ne hid, fun hin => (h.noFresh _ hin).ne hid⟩
  refine { h.tick with
    ids := nodup_map_concat h.ids fun q hq hab => (h.fresh q hq).ne (hab.trans hid)
    fresh := forall_mem_concat h.tick.fresh (hid ▸ lt_succ_self next)
    granted := forall_mem_concat h.granted ?_
    kept := forall_mem_concat h.kept hnew.2 }
  · rw [hwaits]
    exact iff_of_false false_ne_true hnew.1

end

/-! ### Granting -/

section

variable {s : ALock} {held waiting before after batch : List Req} {r : Req}

theorem map_key_grant (batch : List Req) : (batch.map Req.grant).map Req.key = batch.map Req.key := by
  rw [map_map]
  rfl

theorem isReader_true : r.isReader = true ↔ r.type = .rlock := decide_eq_true_iff

theorem isReader_false : r.isReader = false ↔ r.type = .wlock := by
  cases r with
  | mk id priority type granted => cases type <;> simp [Req.isReader]

theorem countP_readers (h : ∀ q ∈ held, q.type = .rlock) : held.countP Req.isReader = held.length :=
  countP_eq_length.mpr fun q hq => isReader_true.mpr (h q hq)

theorem head_dropWhile (after : List Req) :
    ∀ q ∈ (after.dropWhile Req.isReader).head?, q.type = .wlock := by
  intro q hq
  have hnot := head?_dropWhile_not Req.isReader after
  rw [hq] at hnot
  exact isReader_false.mp hnot

theorem writeAcquire_inv (r : Req) (after : List Req) (hw : r.type = .wlock)
    (hwaits : ∀ q ∈ r :: after, q.granted = false)
    (hn : s.nRlock = 0) (hcalls : Calls (r :: after) s.nextId s.yes s.no) :
    Leaves (s.writeAcquire [] r after) (r :: after) := by
  refine ⟨_, if_pos ⟨hw, hwaits r mem_cons_self⟩,
    ⟨⟨[r.grant], after, rfl, ?_, ?_, .write hw, ?_⟩, ?_⟩,
    rfl⟩
  · simp [Req.grant]
  · exact fun q hq => hwaits q (mem_cons_of_mem _ hq)
  · have hnot : r.grant.isReader = false := isReader_false.mpr hw
    simpa [hnot] using hn
  · exact Calls.grant [] [r] hcalls fun q hq =>
      hwaits q (mem_singleton.mp hq ▸ mem_cons_self)

/-- Readers at the front of what waits are granted beside those that hold the lock. -/
theorem acquireReaders_inv (held after : List Req) (hgranted : ∀ q ∈ held, q.granted = true)
    (hreaders : ∀ q ∈ held, q.type = .rlock) (hwaits : ∀ q ∈ after, q.granted = false)
    (hn : s.nRlock = held.length) (hstatus : held ≠ [] → s.status = .rlocked)
    (hsome : held ≠ [] ∨ ∃ q rest, after = q :: rest ∧ q.type = .rlock)
    (hcalls : Calls (held ++ after) s.nextId s.yes s.no) :
    ∃ s', s.acquireReaders held after = some s' ∧ Inv s' ∧ s'.status = .rlocked ∧
      s'.requests.map Req.key = (held ++ after).map Req.key := by
  have hsplit := takeWhile_append_dropWhile (p := Req.isReader) (l := after)
  have hbatch : ∀ q ∈ after.takeWhile Req.isReader, q.type = .rlock ∧ q.granted = false := fun q hq =>
    ⟨isReader_true.mp (mem_takeWhile_imp hq), hwaits q ((takeWhile_sublist _).subset hq)⟩
  have hrest : ∀ q ∈ after.dropWhile Req.isReader, q.granted = false := fun q hq =>
    hwaits q ((dropWhile_sublist _).subset hq)
  rw [acquireReaders, readAcquire]
  split
  · next hnil =>
    have hnone : after.dropWhile Req.isReader = after := by
      rw [isEmpty_iff.mp hnil] at hsplit
      exact hsplit
    have hne : held ≠ [] := by
      refine hsome.resolve_right fun ⟨q, rest, hq, htype⟩ => ?_
      rw [hq, takeWhile_cons_of_pos (isReader_true.mpr htype)] at hnil
      cases hnil
    rw [hnone]
    refine ⟨_, rfl, ⟨⟨held, after, rfl, hgranted, hwaits, ?_, ?_⟩, hcalls⟩, hstatus hne, rfl⟩
    · rw [show _ = Status.rlocked from hstatus hne]
      exact .read hne hreaders (hnone ▸ head_dropWhile after)
    · rw [countP_readers hreaders]
      exact hn
  · next hne =>
    have hall : (after.takeWhile Req.isReader).all (fun r => r.isReader && !r.granted) = true := by
      refine all_eq_true.mpr fun q hq => ?_
      simp [Req.isReader, hbatch q hq]
    have hstatus' : (if s.nRlock = 0 then Status.rlocked else s.status) = .rlocked := by
      split
      · rfl
      · next hpos =>
        refine hstatus fun hnil => hpos ?_
        rw [hn, hnil]
        rfl
    have hgr : ∀ q ∈ (after.takeWhile Req.isReader).map Req.grant,
        q.granted = true ∧ q.type = .rlock := by
      intro q hq
      obtain ⟨q', hq', rfl⟩ := mem_map.mp hq
      exact ⟨rfl, (hbatch q' hq').1⟩
    rw [if_pos hall]
    refine ⟨_, rfl, ⟨⟨held ++ (after.takeWhile Req.isReader).map Req.grant,
      after.dropWhile Req.isReader, (append_assoc ..).symm,
      forall_mem_append.mpr ⟨hgranted, fun q hq => (hgr q hq).1⟩, hrest, ?_, ?_⟩, ?_⟩, hstatus', ?_⟩
    · rw [show _ = Status.rlocked from hstatus']
      refine .read (fun hnil => ?_) (forall_mem_append.mpr ⟨hreaders, fun q hq => (hgr q hq).2⟩)
        (head_dropWhile after)
      rw [append_eq_nil_iff, map_eq_nil_iff] at hnil
      exact hne (isEmpty_iff.mpr hnil.2)
    · rw [countP_append, countP_readers hreaders, countP_readers fun q hq => (hgr q hq).2]
      simp [hn]
    · exact Calls.grant held _ (hsplit.symm ▸ hcalls) fun q hq => (hbatch q hq).2
    · rw [map_append, map_append, map_key_grant, ← map_append, hsplit, map_append]

end

/-! ### Abort -/

section

variable {s : ALock} {held waiting before after : List Req} {r : Req} {id : ℕ}

theorem split_waiting (hgranted : ∀ q ∈ held, q.granted = true)
    (heq : held ++ waiting = before ++ r :: after) (hr : r.granted = false) :
    ∃ w, before = held ++ w ∧ waiting = w ++ r :: after := by
  rcases append_eq_append_iff.mp heq with ⟨w, hb, hw⟩ | ⟨w, hh, hw⟩
  · exact ⟨w, hb, hw⟩
  · cases w with
    | nil => exact ⟨[], by simpa using hh.symm, hw.symm⟩
    | cons q w =>
      obtain ⟨rfl, -⟩ := cons.inj hw
      have htrue := hgranted r (hh ▸ mem_append_right _ mem_cons_self)
      rw [hr] at htrue
      cases htrue

theorem split_held (hwaits : ∀ q ∈ waiting, q.granted = false)
    (heq : held ++ waiting = before ++ r :: after) (hr : r.granted = true) :
    ∃ rest, held = before ++ r :: rest ∧ after = rest ++ waiting := by
  have hnot : r ∉ waiting := fun hmem => by
    have hfalse := hwaits r hmem
    rw [hr] at hfalse
    cases hfalse
  rcases append_eq_append_iff.mp heq with ⟨w, hb, hw⟩ | ⟨w, hh, hw⟩
  · exact absurd (hw ▸ mem_append_right _ mem_cons_self) hnot
  · cases w with
    | nil => exact absurd ((nil_append waiting ▸ hw) ▸ mem_cons_self) hnot
    | cons q w =>
      obtain ⟨rfl, rfl⟩ := cons.inj hw
      exact ⟨w, hh, rfl⟩

theorem eq_nil_of_singleton {w : Req} (h : [w] = before ++ r :: after) :
    before = [] ∧ after = [] := by
  have hlen := congrArg length h
  simp only [length_append, length_cons, length_nil] at hlen
  exact ⟨length_eq_zero_iff.mp (by omega), length_eq_zero_iff.mp (by omega)⟩

section
variable (h : Queue s held waiting) (heq : s.requests = before ++ r :: after)
  (hcalls : Calls (before ++ after) s.nextId s.yes s.no)
include h heq hcalls

/-- A request that waits leaves. -/
theorem abortWaiting_inv (hr : r.granted = false) :
    Leaves (s.abortWaiting before r after) (before ++ after) := by
  obtain ⟨w, rfl, hwaiting⟩ := split_waiting h.granted (h.requests.symm.trans heq) hr
  have hwaits : ∀ q ∈ w ++ after, q.granted = false := fun q hq =>
    h.waits q (hwaiting ▸ mem_middle hq r)
  have hholds := h.holds
  generalize hstatus : s.status = status at hholds
  rw [abortWaiting]
  split
  · next hwriter =>
    -- the first writer of the queue: its readers are joined by those behind it
    obtain ⟨hw, hbefore⟩ := hwriter
    have hreader : ∀ q ∈ held ++ w, q.type = .rlock := fun q hq =>
      isReader_true.mp (all_eq_true.mp hbefore q hq)
    cases hholds with
    | free => simp at hwaiting
    | write hw' => cases hw'.symm.trans (hreader _ (mem_append_left _ mem_cons_self))
    | read hne hreaders hnext =>
      have hnil : w = [] := by
        cases w with
        | nil => rfl
        | cons q w => cases (hnext q (by rw [hwaiting]; rfl)).symm.trans (hreader q (by simp))
      subst hnil
      rw [append_nil] at hcalls ⊢
      rw [if_pos hstatus]
      obtain ⟨s', hs', hinv, -, hkeys⟩ := acquireReaders_inv held after h.granted hreaders hwaits
        (h.nRlock.trans (congrArg _ (countP_readers hreaders))) (fun _ => hstatus) (.inl hne) hcalls
      exact ⟨s', hs', hinv, hkeys⟩
  · next hother =>
    refine ⟨_, rfl, ⟨⟨held, w ++ after, append_assoc .., h.granted, hwaits, ?_, h.nRlock⟩,
      hcalls⟩, rfl⟩
    show Holds s.status held (w ++ after)
    rw [hstatus]
    cases hholds with
    | free => simp at hwaiting
    | write hw => exact .write hw
    | read hne hreaders hnext =>
      refine .read hne hreaders fun q hq => ?_
      rw [hwaiting] at hnext
      cases w with
      | nil =>
        refine absurd ⟨hnext r rfl, all_eq_true.mpr fun x hx => ?_⟩ hother
        exact isReader_true.mpr (hreaders x (by simpa using hx))
      | cons q' w => exact hnext q hq

/-- A reader unlocks. -/
theorem unlockRead_inv (hr : r.granted = true) (hreader : r.type = .rlock) :
    Leaves (s.unlockRead before after) (before ++ after) := by
  obtain ⟨rest, hheld, rfl⟩ := split_held h.waits (h.requests.symm.trans heq) hr
  have hholds := h.holds
  generalize hstatus : s.status = status at hholds
  cases hholds with
  | free => simp at hheld
  | write hw =>
    have hmem : r ∈ before ++ r :: rest := mem_append_right _ mem_cons_self
    rw [← hheld, mem_singleton] at hmem
    cases (hmem ▸ hw).symm.trans hreader
  | read hne hreaders hnext =>
    have hn : s.nRlock - 1 = ((before ++ rest).length : ℕ) := by
      rw [h.nRlock, countP_readers hreaders, hheld]
      simp
      omega
    have hsub : ∀ q ∈ before ++ rest, q ∈ held := fun q hq => hheld ▸ mem_middle hq r
    unfold unlockRead
    dsimp only
    split
    · next hzero =>
      obtain ⟨rfl, rfl⟩ := append_eq_nil_iff.mp
        (length_eq_zero_iff.mp (by omega : (before ++ rest).length = 0))
      simp only [nil_append] at hcalls ⊢
      cases hwaiting : waiting with
      | nil =>
        rw [hwaiting] at hcalls
        exact ⟨_, rfl, ⟨⟨[], [], rfl, by simp, by simp, .free, by simpa using hzero⟩, hcalls⟩, rfl⟩
      | cons q waiting' =>
        rw [hwaiting] at hcalls
        obtain ⟨s', hs', hinv, hkeys⟩ := writeAcquire_inv
          (s := { s with requests := q :: waiting', nRlock := s.nRlock - 1 }) q waiting'
          (hnext q (by rw [hwaiting]; rfl)) (hwaiting ▸ h.waits) hzero hcalls
        exact ⟨s', hs', hinv, hkeys⟩
    · next hpos =>
      refine ⟨_, rfl, ⟨⟨before ++ rest, waiting, (append_assoc ..).symm, fun q hq =>
        h.granted q (hsub q hq), h.waits, ?_, ?_⟩, hcalls⟩, rfl⟩
      · show Holds s.status _ _
        rw [hstatus]
        refine .read (fun hnil => hpos ?_) (fun q hq => hreaders q (hsub q hq)) hnext
        rw [hn, hnil]
        rfl
      · rw [countP_readers fun q hq => hreaders q (hsub q hq)]
        exact hn

/-- A writer unlocks. -/
theorem unlockWrite_inv (hr : r.granted = true) (hwriter : r.type = .wlock) :
    Leaves (s.unlockWrite before after) (before ++ after) := by
  obtain ⟨rest, hheld, rfl⟩ := split_held h.waits (h.requests.symm.trans heq) hr
  have hmem : r ∈ held := hheld ▸ mem_append_right _ mem_cons_self
  have hholds := h.holds
  generalize hstatus : s.status = status at hholds
  cases hholds with
  | free => simp at hheld
  | read hne hreaders hnext => cases (hreaders r hmem).symm.trans hwriter
  | @write w _ hw =>
    obtain ⟨rfl, rfl⟩ := eq_nil_of_singleton hheld
    have hn : s.nRlock = 0 := by
      rw [h.nRlock, countP_singleton, if_neg]
      · rfl
      · rw [isReader_false.mpr hw]
        exact false_ne_true
    simp only [nil_append] at hcalls ⊢
    unfold unlockWrite
    dsimp only
    cases hwaiting : waiting with
    | nil =>
      rw [hwaiting] at hcalls
      exact ⟨_, rfl, ⟨⟨[], [], rfl, by simp, by simp, .free, by simpa using hn⟩, hcalls⟩, rfl⟩
    | cons q waiting' =>
      rw [hwaiting] at hcalls
      have hwaits : ∀ x ∈ q :: waiting', x.granted = false := hwaiting ▸ h.waits
      by_cases hq : q.type = .wlock
      · simp only [hq, if_true]
        exact writeAcquire_inv (s := { s with requests := q :: waiting' }) q waiting' hq hwaits hn
          hcalls
      · have hreader : q.type = .rlock := by
          cases hqt : q.type with
          | rlock => rfl
          | wlock => exact absurd hqt hq
        obtain ⟨s', hs', hinv, hst, hkeys⟩ := acquireReaders_inv
          (s := { s with requests := q :: waiting' }) [] (q :: waiting') (by simp) (by simp) hwaits
          hn (fun hne => absurd rfl hne) (.inr ⟨q, waiting', rfl, hreader⟩) hcalls
        refine ⟨s', ?_, hinv, hkeys⟩
        simp only [hq, if_false, nil_append, hs', Option.bind_some, hst, if_true]

end

theorem abortWaiting_no (s : ALock) (before : List Req) (r : Req) (after : List Req) (i : ℕ) :
    ((s.abortWaiting before r after).map fun s => { s with no := s.no ++ [i] }) =
      { s with no := s.no ++ [i] }.abortWaiting before r after := by
  simp only [abortWaiting, acquireReaders, readAcquire]
  split_ifs <;> rfl

/-- What is left of the queue when a request leaves it. -/
def without (id : ℕ) (requests : List Req) : List Req := requests.eraseP (·.id = id)

theorem split_id (requests : List Req) (id : ℕ) :
    (requests.dropWhile (·.id ≠ id) = [] ∧ without id requests = requests) ∨
      ∃ r after, requests.dropWhile (·.id ≠ id) = r :: after ∧ r.id = id ∧
        requests = requests.takeWhile (·.id ≠ id) ++ r :: after ∧
        without id requests = requests.takeWhile (·.id ≠ id) ++ after := by
  induction requests with
  | nil => exact .inl ⟨rfl, rfl⟩
  | cons q requests ih =>
    by_cases hq : q.id = id
    · exact .inr ⟨q, requests, by simp [hq], hq, by simp [hq], by simp [without, hq]⟩
    · have hcons : without id (q :: requests) = q :: without id requests := by simp [without, hq]
      rw [dropWhile_cons_of_pos (by simpa using hq), takeWhile_cons_of_pos (by simpa using hq),
        hcons]
      rcases ih with ⟨hd, hw⟩ | ⟨r, after, hd, hr, hreq, hw⟩
      · exact .inl ⟨hd, by rw [hw]⟩
      · exact .inr ⟨r, after, hd, hr, by rw [cons_append, ← hreq], by rw [hw, cons_append]⟩

theorem abort_inv (h : Inv s) (id : ℕ) : Leaves (s.abort id) (without id s.requests) := by
  obtain ⟨held, waiting, hq⟩ := h.queue
  rcases split_id s.requests id with ⟨hd, hw⟩ | ⟨r, after, hd, rfl, hreq, hw⟩
  · refine ⟨s, ?_, h, by rw [hw]⟩
    rw [abort, hd]
  · generalize hbefore : s.requests.takeWhile (·.id ≠ r.id) = before at *
    have hsub : (before ++ after).Sublist s.requests := by
      rw [hreq]
      exact (sublist_cons_self r after).append_left before
    have hcalls := h.calls.sublist hsub
    rw [abort, hd, hw]
    simp only [hbefore]
    cases hr : r.granted with
    | true =>
      rw [if_pos rfl]
      split
      · next hreader => exact unlockRead_inv hq hreq hcalls hr (isReader_true.mp hreader)
      · next hwriter =>
        exact unlockWrite_inv hq hreq hcalls hr (isReader_false.mp (eq_false_of_ne_true hwriter))
    | false =>
      rw [if_neg Bool.false_ne_true, abortWaiting_no]
      exact abortWaiting_inv (s := { s with no := s.no ++ [r.id] }) { hq with } hreq
        (Calls.remove (hreq ▸ h.calls) hr) hr

end

end ALock

end Fiss.Alock
