import Fiss.Alock.WaitDie
import Fiss.Alock.WoundDie
import Fiss.Tpl.Coverage

/-! A transaction that runs alone under two-phase locking: its pieces are dispatched one after the
    other, each with a group of locks of its own and all with the priority of the transaction, and
    keep their locks. A piece is given by the locks the first run of its handler asks for
    (`TplExecutor.dryRun`). It is not prepared before its pieces are dispatched, so that a wound
    callback always wounds. -/

namespace Fiss.Tpl
open List Prod TplExecutor
open Alock (ALock WaitDieALock Req)
open Alock.WoundDieALock (look wound woundDie extendReaders_eq inv_vlock)

def LockType.alock : LockType → Alock.LockType
  | .rlock => .rlock
  | .wlock => .wlock

/-- A kind of lock, with the requests of one transaction. -/
structure LockKind (L : Type) where
  alock : L → ALock
  fresh : L
  vlock : Alock.LockType → L → Option L
  abort : ℕ → L → Option L

def LockKind.waitDie (priority : ℤ) : LockKind WaitDieALock :=
  ⟨WaitDieALock.toALock, {}, fun type => WaitDieALock.vlock type priority, WaitDieALock.abort⟩

def LockKind.woundDie (priority : ℤ) : LockKind ALock :=
  ⟨id, {}, fun type => Alock.WoundDieALock.vlock type priority fun _ => true, ALock.abort⟩

/-- What becomes of a request: it may also wound one that holds the lock. -/
inductive Answer where
  | granted (id : ℕ)
  | waiting
  | rejected
  | wounding
  deriving DecidableEq

/-- What the callbacks of a lock said when it went from `l` to `l'` on a new request. -/
def answer (l l' : ALock) : Answer :=
  if l.nextId ∈ l'.no then .rejected
  else if ∃ q ∈ l.requests, q.granted ∧ q.id ∉ l'.requests.map Req.id then .wounding
  else if l.nextId ∈ l'.yes then .granted l.nextId else .waiting

/-- The locks of the columns, and the answers to the requests so far. -/
structure Server (C L : Type) where
  locks : C → L
  answers : List (C × Answer) := []

variable {C L : Type} [DecidableEq C]

namespace LockKind

/-- One request of `lock_all`. -/
def request (K : LockKind L) (s : Server C L) (r : C × LockType) : Option (Server C L) :=
  (K.vlock r.2.alock (s.locks r.1)).map fun l =>
    ⟨Function.update s.locks r.1 l,
      s.answers ++ [(r.1, answer (K.alock (s.locks r.1)) (K.alock l))]⟩

/-- A granted request is aborted (`abort_all_locked`). -/
def release (K : LockKind L) (s : Server C L) : C × Answer → Option (Server C L)
  | (col, .granted id) =>
    (K.abort id (s.locks col)).map fun l => { s with locks := Function.update s.locks col l }
  | _ => some s

/-- `OnDispatch` of a piece: nothing is asked for once the transaction is wounded, and the piece
    gives its locks back if a request was rejected and none still waits. -/
def onDispatch (K : LockKind L) (s : Server C L) (locks : List (C × LockType)) :
    Option (Server C L) :=
  if .wounding ∈ s.answers.map snd then some s
  else (run K.request s (requestsOf locks).entries).bind fun s' =>
    let answers := s'.answers.drop s.answers.length
    if .rejected ∈ answers.map snd ∧ .waiting ∉ answers.map snd then
      run K.release s' answers
    else some s'

end LockKind

/-- No request was rejected, and none wounded another. -/
def Server.Unharmed (s : Server C L) : Prop := ∀ a ∈ s.answers, a.2 ≠ .rejected ∧ a.2 ≠ .wounding

/-- The pieces are dispatched on fresh locks, and no request is rejected or wounded. -/
def Unharmed (K : LockKind L) (pieces : List (List (C × LockType))) : Prop :=
  ∃ s, run K.onDispatch ⟨fun _ => K.fresh, []⟩ pieces = some s ∧ s.Unharmed

/-- No column is asked for by two pieces, unless both ask for a read lock. -/
def Apart (pieces : List (List (C × LockType))) : Prop :=
  pieces.Pairwise fun locks locks' => ∀ col type type', lastLock locks col = some type →
    lastLock locks' col = some type' → type = .rlock ∧ type' = .rlock

/-! ### One lock -/

/-- The lock has granted all requests made, which are of these types. -/
structure Shared (priority : ℤ) (l : ALock) (types : List Alock.LockType) : Prop where
  inv : ALock.Inv l
  requests : ∀ q ∈ l.requests, q.granted = true ∧ q.priority = priority
  types : l.requests.map Req.type = types
  no : l.no = []

/-- A new request is granted where all are readers, and does harm otherwise. -/
structure Takes (priority : ℤ) (l l' : ALock) (types : List Alock.LockType)
    (type : Alock.LockType) : Prop where
  harmless : (∀ t ∈ types, t = .rlock ∧ type = .rlock) →
    answer l l' = .granted l.nextId ∧ Shared priority l' (types ++ [type])
  harm : ¬ (∀ t ∈ types, t = .rlock ∧ type = .rlock) →
    answer l l' = .rejected ∨ answer l l' = .wounding

section Locks

variable {priority : ℤ} {l l' : ALock} {types : List Alock.LockType} {type : Alock.LockType}

theorem Shared.cases (h : Shared priority l types) : l.status = .free ∧ l.requests = [] ∨
      (∃ w, l.status = .wlocked ∧ l.requests = [w] ∧ w.type = .wlock ∧ l.nRlock = 0) ∨
      l.status = .rlocked ∧ l.requests ≠ [] ∧ (∀ q ∈ l.requests, q.type = .rlock) ∧
        l.nRlock = l.requests.length := by
  obtain ⟨held, waiting, hq⟩ := h.inv.queue
  have hnone : waiting = [] := by
    refine eq_nil_iff_forall_not_mem.mpr fun q hw => ?_
    have hno := hq.waits q hw
    rw [(h.requests q (hq.requests ▸ mem_append_right _ hw)).1] at hno
    cases hno
  have hheld : l.requests = held := by rw [hq.requests, hnone, append_nil]
  have hn := hq.nRlock
  have hholds := hq.holds
  rw [← hheld] at hholds hn
  generalize hstatus : l.status = status at hholds
  generalize l.requests = requests at hholds hn
  cases hholds with
  | free => exact .inl ⟨rfl, rfl⟩
  | write hw => exact .inr (.inl ⟨_, rfl, rfl, hw, by simpa [Req.isReader, hw] using hn⟩)
  | read hne hreaders =>
    exact .inr (.inr ⟨rfl, hne, hreaders, hn.trans (by rw [ALock.countP_readers hreaders])⟩)

theorem Shared.grant (h : Shared priority l types) (hinv : ALock.Inv l')
    (hrequests : l'.requests = l.requests ++ [⟨l.nextId, priority, type, true⟩])
    (hno : l'.no = l.no) :
    answer l l' = .granted l.nextId ∧ Shared priority l' (types ++ [type]) := by
  have hyes : l.nextId ∈ l'.yes :=
    (hinv.calls.granted ⟨l.nextId, priority, type, true⟩ (by simp [hrequests])).mp rfl
  constructor
  · rw [answer, hno, h.no, if_neg not_mem_nil, if_neg, if_pos hyes]
    rintro ⟨q, hq, -, hlost⟩
    exact hlost (mem_map_of_mem (hrequests ▸ mem_append_left _ hq))
  · refine ⟨hinv, ?_, by rw [hrequests, map_append, h.types]; rfl, hno.trans h.no⟩
    intro q hq
    rcases mem_append.mp (hrequests ▸ hq) with hq | hq
    · exact h.requests q hq
    · simp [mem_singleton.mp hq]

theorem Shared.takes (h : Shared priority l types)
    (hgrant : (l.status = .free ∨ l.status = .rlocked ∧ type = .rlock) → ALock.Inv l' ∧
      l'.requests = l.requests ++ [⟨l.nextId, priority, type, true⟩] ∧ l'.no = l.no)
    (hharm : ¬ (l.status = .free ∨ l.status = .rlocked ∧ type = .rlock) →
      answer l l' = .rejected ∨ answer l l' = .wounding) : Takes priority l l' types type := by
  have hiff : (∀ t ∈ types, t = .rlock ∧ type = .rlock) ↔
      l.status = .free ∨ l.status = .rlocked ∧ type = .rlock := by
    rw [← h.types]
    obtain ⟨hs, hnil⟩ | ⟨w, hs, hw, ht, -⟩ | ⟨hs, hne, hreaders, -⟩ := h.cases
    · simp [hs, hnil]
    · simp [hs, hw, ht]
    · obtain ⟨q, rest, hq⟩ := exists_cons_of_ne_nil hne
      simp only [forall_mem_map, hs, reduceCtorEq, true_and, false_or]
      exact ⟨fun hall => (hall q (by simp [hq])).2, fun ht q hq => ⟨hreaders q hq, ht⟩⟩
  refine ⟨fun hall => ?_, fun hnot => hharm (hiff.not.mp hnot)⟩
  obtain ⟨hinv, hrequests, hno⟩ := hgrant (hiff.mp hall)
  exact h.grant hinv hrequests hno

theorem waitDie_takes {l : WaitDieALock} (hinv : WaitDieALock.Inv l)
    (h : Shared priority l.toALock types) (type : Alock.LockType) :
    ∃ l', l.vlock type priority = some l' ∧ WaitDieALock.Inv l' ∧
      Takes priority l.toALock l'.toALock types type := by
  obtain ⟨l', hl', hinv'⟩ := hinv.vlock type priority
  refine ⟨l', hl', hinv', h.takes (fun hok => ⟨hinv'.base, ?_⟩) fun hnot => .inl ?_⟩
  · have hw : l.status = .rlocked → l.nWInQueue = 0 := by
      intro hs
      obtain ⟨hs', -⟩ | ⟨w, hs', -⟩ | ⟨-, -, hreaders, -⟩ := h.cases
      · cases hs.symm.trans hs'
      · cases hs.symm.trans hs'
      · by_contra hne
        obtain ⟨q, hq, ht⟩ := hinv.exists_writer hne
        cases (hreaders q hq).symm.trans ht
    have hif : l.status = .free ∨ l.status = .rlocked ∧ type = .rlock ∧ l.nWInQueue = 0 :=
      hok.imp_right fun hr => ⟨hr.1, hr.2, hw hr.1⟩
    rw [WaitDieALock.vlock, if_pos hif] at hl'
    cases type <;> simp [WaitDieALock.acquire, ALock.readAcquire, ALock.writeAcquire,
      WaitDieALock.count, Req.isReader, Req.grant] at hl' <;> simp [← hl']
  · have hif : ¬ (l.status = .free ∨ l.status = .rlocked ∧ type = .rlock ∧ l.nWInQueue = 0) :=
      fun hr => hnot (hr.imp_right fun hr => ⟨hr.1, hr.2.1⟩)
    have hdie : l.waitDie type priority = some .die := by
      obtain ⟨hs, -⟩ | ⟨w, -, hw, ht, -⟩ | ⟨hs, hne, -⟩ := h.cases
      · exact absurd (.inl hs) hnot
      · have hp := (h.requests w (by simp [hw])).2
        cases type <;> simp [WaitDieALock.waitDie, WaitDieALock.waitDieWrite,
          WaitDieALock.waitDieRead, hw, hp, ht]
      · obtain ⟨q, rest, hq⟩ := exists_cons_of_ne_nil (reverse_ne_nil_iff.mpr hne)
        have hp := (h.requests q (mem_reverse.mp (hq ▸ mem_cons_self))).2
        cases type with
        | rlock => exact absurd (.inr ⟨hs, rfl⟩) hnot
        | wlock => simp [WaitDieALock.waitDie, WaitDieALock.waitDieWrite, hq, hp]
    rw [WaitDieALock.vlock, if_neg hif, hdie] at hl'
    cases hl'
    rw [answer, if_pos (mem_append_right _ (mem_singleton_self _))]

theorem woundDie_readers {queue : List Req} (wounds : ℕ → Bool)
    (hqueue : ∀ q ∈ queue, q.type = .rlock ∧ q.priority = priority) :
    woundDie .rlock priority wounds queue l = some (queue, l) := by
  induction queue with
  | nil => rfl
  | cons q queue ih =>
    obtain ⟨ht, hp⟩ := hqueue q mem_cons_self
    simp [woundDie, look, ht, hp,
      ih fun x hx => hqueue x (mem_cons_of_mem q hx)]

theorem woundDie_writer {queue : List Req} (hn : l.nRlock = queue.length)
    (hstatus : l.status = if queue = [] then .free else .rlocked) (hqueue : ∀ q ∈ queue,
      q.type = .rlock ∧ q.granted = true ∧ q.priority = priority) :
    woundDie .wlock priority (fun _ => true) queue l =
      some ([], { l with nRlock := 0, status := .free }) := by
  induction queue generalizing l with
  | nil =>
    simp only [length_nil, Nat.cast_zero, if_true] at hn hstatus
    rw [woundDie, ← hn, ← hstatus]
  | cons q queue ih =>
    obtain ⟨ht, hgranted, hp⟩ := hqueue q mem_cons_self
    have hlast : l.nRlock - 1 = 0 ↔ queue = [] := by
      rw [hn, ← length_eq_zero_iff, length_cons]
      omega
    have hstep := ih (l := { l with
        nRlock := l.nRlock - 1
        status := if l.nRlock - 1 = 0 then .free else .rlocked })
      (by simp [hn]) (by simp [hlast]) fun x hx => hqueue x (mem_cons_of_mem q hx)
    simp [woundDie, look, wound, ht,
      hgranted, hp, hstatus, hstep]

theorem vlock_only {s : ALock} (hl' : Alock.WoundDieALock.vlock type priority (fun _ => true) l =
      some l') (hdie : woundDie type priority (fun _ => true)
        l.requests.reverse { l with nextId := l.nextId + 1 } = some ([], s))
    (hs : s.status = .free) (hno : s.no = l.no) :
    l'.requests = [⟨l.nextId, priority, type, true⟩] ∧ l'.no = l.no := by
  rw [Alock.WoundDieALock.vlock, hdie] at hl'
  cases type <;> simp [Alock.WoundDieALock.acquire, hs, ALock.acquireReaders, ALock.readAcquire,
    ALock.writeAcquire, Req.isReader, Req.grant] at hl' <;> simp [← hl', hno]

theorem acquire_reader {s : ALock} {q r : Req} {held : List Req}
    (hl' : Alock.WoundDieALock.acquire s = some l') (hs : s.status = .rlocked)
    (hrequests : s.requests = q :: held ++ [r])
    (hheld : ∀ x ∈ q :: held, x.type = .rlock ∧ x.granted = true)
    (hr : r.type = .rlock ∧ r.granted = false) :
    l'.requests = q :: held ++ [r.grant] ∧ l'.no = s.no := by
  have hextend := extendReaders_eq (fun x hx => (hheld x hx).2)
    (fun x hx => (hheld x hx).1) (by simp [hr.2]) hrequests
  have hfront := hheld q mem_cons_self
  rw [Alock.WoundDieALock.acquire, hrequests] at hl'
  simp [hs, Req.isReader, hfront, hextend, ALock.acquireReaders, ALock.readAcquire, hr] at hl'
  simp [← hl']

theorem woundDie_takes (h : Shared priority l types) (type : Alock.LockType) :
    ∃ l', Alock.WoundDieALock.vlock type priority (fun _ => true) l = some l' ∧
      Takes priority l l' types type := by
  obtain ⟨l', hl', hinv'⟩ := inv_vlock h.inv type priority fun _ => true
  refine ⟨l', hl', ?_⟩
  -- where something is wounded, the new request is the only one left
  have hwounding : l.requests ≠ [] → l'.requests = [⟨l.nextId, priority, type, true⟩] ∧
      l'.no = l.no → answer l l' = .wounding := by
    rintro hne ⟨hrequests, hno⟩
    obtain ⟨q, rest, hq⟩ := exists_cons_of_ne_nil hne
    have hmem : q ∈ l.requests := hq ▸ mem_cons_self
    have hfresh := h.inv.calls.fresh q hmem
    rw [answer, hno, h.no, if_neg not_mem_nil, if_pos]
    exact ⟨q, hmem, (h.requests q hmem).1, by simp [hrequests, hfresh.ne]⟩
  obtain ⟨hs, hnil⟩ | ⟨w, hs, hw, ht, hn⟩ | ⟨hs, hne, hreaders, hn⟩ := h.cases
  · have hdie : woundDie type priority (fun _ => true) l.requests.reverse
        { l with nextId := l.nextId + 1 } = some ([], { l with nextId := l.nextId + 1 }) := by
      simp [hnil, woundDie]
    refine h.takes (fun _ => ⟨hinv', ?_⟩) fun hnot => absurd (.inl hs) hnot
    rw [hnil]
    exact vlock_only hl' hdie hs rfl
  · obtain ⟨hgranted, hp⟩ := h.requests w (by simp [hw])
    refine h.takes (fun hok => by simp [hs] at hok) fun _ => .inr (hwounding (by simp [hw]) ?_)
    have hdie : woundDie type priority (fun _ => true) l.requests.reverse
        { l with nextId := l.nextId + 1 } =
          some ([], { l with nextId := l.nextId + 1, status := .free }) := by
      cases type <;> simp [woundDie, look,
        wound, hw, ht, hgranted, hp, hs]
    exact vlock_only hl' hdie rfl rfl
  · have hqueue : ∀ q ∈ l.requests.reverse, q.type = .rlock ∧ q.granted = true ∧
        q.priority = priority := fun q hq =>
      ⟨hreaders q (mem_reverse.mp hq), h.requests q (mem_reverse.mp hq)⟩
    cases type with
    | wlock =>
      refine h.takes (fun hok => by simp [hs] at hok) fun _ => .inr (hwounding hne ?_)
      have hdie := woundDie_writer (l := { l with nextId := l.nextId + 1 }) (by simpa using hn)
        (by simpa [hne] using hs) hqueue
      exact vlock_only hl' hdie rfl rfl
    | rlock =>
      refine h.takes (fun _ => ⟨hinv', ?_⟩) fun hnot => absurd (.inr ⟨hs, rfl⟩) hnot
      rw [Alock.WoundDieALock.vlock,
        woundDie_readers _ fun q hq => ⟨(hqueue q hq).1, (hqueue q hq).2.2⟩, Option.bind_some,
        reverse_reverse] at hl'
      obtain ⟨q, rest, hq⟩ := exists_cons_of_ne_nil hne
      rw [hq] at hl' ⊢
      exact acquire_reader hl' hs rfl (fun x hx =>
        ⟨hreaders x (hq ▸ hx), (h.requests x (hq ▸ hx)).1⟩) ⟨rfl, rfl⟩

end Locks

/-! ### All locks -/

/-- Two requests that may both be granted. -/
def Ok (r r' : C × LockType) : Prop := r.1 = r'.1 → r.2 = .rlock ∧ r'.2 = .rlock

/-- What was asked for of a column. -/
def typesAt (asked : List (C × LockType)) (col : C) : List Alock.LockType :=
  (asked.filter (·.1 = col)).map (·.2.alock)

/-- A kind of lock that treats the requests of a transaction alone as it should. -/
structure LockKind.Alone (K : LockKind L) (priority : ℤ) (Inv : L → Prop) : Prop where
  fresh : Inv K.fresh ∧ Shared priority (K.alock K.fresh) []
  vlock : ∀ {l types}, Inv l → Shared priority (K.alock l) types → ∀ type,
    ∃ l', K.vlock type l = some l' ∧ Inv l' ∧ Takes priority (K.alock l) (K.alock l') types type

/-- All requests so far are granted. -/
structure Clean (K : LockKind L) (priority : ℤ) (Inv : L → Prop) (asked : List (C × LockType))
    (s : Server C L) : Prop where
  locks : ∀ col, Inv (s.locks col) ∧ Shared priority (K.alock (s.locks col)) (typesAt asked col)
  ok : asked.Pairwise Ok
  unharmed : ∀ a ∈ s.answers, ∃ id, a.2 = .granted id

section Requests

variable {K : LockKind L} {priority : ℤ} {Inv : L → Prop} {asked : List (C × LockType)}
  {s s' : Server C L} {r : C × LockType} {locks : List (C × LockType)}

theorem alock_eq_rlock {t : LockType} : t.alock = .rlock ↔ t = .rlock := by cases t <;> decide

theorem ok_concat (h : asked.Pairwise Ok) : (asked ++ [r]).Pairwise Ok ↔
    ∀ t ∈ typesAt asked r.1, t = .rlock ∧ r.2.alock = .rlock := by
  simp only [pairwise_append, h, pairwise_singleton, forall_mem_singleton, true_and,
    typesAt, forall_mem_map, mem_filter, decide_eq_true_eq, alock_eq_rlock, and_imp, Ok]

theorem LockKind.Alone.request (hK : K.Alone priority Inv)
    (h : Clean K priority Inv asked s) (hok : (asked ++ [r]).Pairwise Ok) :
    ∃ s', K.request s r = some s' ∧ Clean K priority Inv (asked ++ [r]) s' := by
  obtain ⟨l', hl', hinv', htakes⟩ := hK.vlock (h.locks r.1).1 (h.locks r.1).2 r.2.alock
  obtain ⟨hanswer, hshared⟩ := htakes.harmless ((ok_concat h.ok).mp hok)
  refine ⟨_, by rw [LockKind.request, hl', Option.map_some], fun col => ?_, hok,
    forall_mem_concat h.unharmed ⟨_, hanswer⟩⟩
  by_cases hcol : col = r.1
  · subst hcol
    simpa [typesAt] using ⟨hinv', hshared⟩
  · simpa [typesAt, hcol, Ne.symm hcol] using h.locks col

theorem LockKind.Alone.harm (hK : K.Alone priority Inv)
    (h : Clean K priority Inv asked s) (hs' : K.request s r = some s') (hun : s'.Unharmed) :
    (asked ++ [r]).Pairwise Ok := by
  obtain ⟨l', hl', -, htakes⟩ := hK.vlock (h.locks r.1).1 (h.locks r.1).2 r.2.alock
  rw [LockKind.request, hl', Option.map_some] at hs'
  cases hs'
  have hlast := hun (r.1, _) (mem_append_right _ (mem_singleton_self _))
  rw [ok_concat h.ok]
  by_contra hnot
  rcases htakes.harm hnot with hharm | hharm
  · exact hlast.1 hharm
  · exact hlast.2 hharm

theorem Clean.un (h : Clean K priority Inv asked s) : s.Unharmed := by
  intro a ha
  obtain ⟨id, hid⟩ := h.unharmed a ha
  simp [hid]

theorem request_un (hs' : K.request s r = some s') (hun : s'.Unharmed) : s.Unharmed := by
  rw [LockKind.request, Option.map_eq_some_iff] at hs'
  obtain ⟨l, -, rfl⟩ := hs'
  exact fun a ha => hun a (mem_append_left _ ha)

theorem LockKind.Alone.requests (hK : K.Alone priority Inv) (h : Clean K priority Inv asked s)
    (rs : List (C × LockType)) : ((asked ++ rs).Pairwise Ok → ∃ s', run K.request s rs = some s' ∧
      Clean K priority Inv (asked ++ rs) s') ∧
      ∀ s', run K.request s rs = some s' → s'.Unharmed → (asked ++ rs).Pairwise Ok := by
  have hrun := run_asks K.request (fun r => [r]) (List.Pairwise Ok) (Clean K priority Inv)
    Server.Unharmed (fun h => h.ok) (fun h => (pairwise_append.mp h).1) hK.request hK.harm
    request_un rs h
  rwa [flatMap_singleton'] at hrun

/-- What a piece asks its group for. -/
def groupOf (locks : List (C × LockType)) : List (C × LockType) :=
  (requestsOf locks).entries

theorem LockKind.Alone.onDispatch (hK : K.Alone priority Inv)
    (h : Clean K priority Inv asked s) (hok : (asked ++ groupOf locks).Pairwise Ok) :
    ∃ s', K.onDispatch s locks = some s' ∧ Clean K priority Inv (asked ++ groupOf locks) s' := by
  obtain ⟨s', hs', hclean⟩ := (hK.requests h _).1 hok
  refine ⟨s', ?_, hclean⟩
  have hno : ∀ answers : List (C × Answer), (∀ a ∈ answers, ∃ id, a.2 = .granted id) →
      .wounding ∉ answers.map snd ∧ .rejected ∉ answers.map snd := by
    intro answers hall
    constructor <;>
    · rintro hmem
      obtain ⟨a, ha, heq⟩ := mem_map.mp hmem
      obtain ⟨id, hid⟩ := hall a ha
      cases hid.symm.trans heq
  rw [LockKind.onDispatch, if_neg (hno _ h.unharmed).1]
  change (run K.request s (groupOf locks)).bind _ = _
  rw [hs', Option.bind_some]
  refine if_neg fun hrej => (hno _ fun a ha => ?_).2 hrej.1
  exact hclean.unharmed a (mem_of_mem_drop ha)

theorem run_release {answers : List (C × Answer)} (hs' : run K.release s answers = some s') :
    s'.answers = s.answers := by
  refine run_inv (P := fun t => t.answers = s.answers) (fun t a t' ht h => ?_) rfl hs'
  rw [LockKind.release.eq_def] at h
  split at h
  · obtain ⟨l, -, rfl⟩ := Option.map_eq_some_iff.mp h
    exact ht
  · exact Option.some.inj h ▸ ht

theorem onDispatch_requests (hs' : K.onDispatch s locks = some s')
    (hun : s'.Unharmed) : ∃ t, run K.request s (groupOf locks) = some t ∧ t.Unharmed := by
  rw [LockKind.onDispatch] at hs'
  split at hs'
  · next hw =>
    obtain ⟨a, ha, heq⟩ := mem_map.mp hw
    exact absurd heq (hun a (Option.some.inj hs' ▸ ha)).2
  · obtain ⟨t, ht, hs'⟩ := Option.bind_eq_some_iff.mp hs'
    refine ⟨t, ht, ?_⟩
    dsimp only at hs'
    split at hs'
    · rw [Server.Unharmed, ← run_release hs']
      exact hun
    · exact Option.some.inj hs' ▸ hun

theorem mem_groupOf : r ∈ groupOf locks ↔ lastLock locks r.1 = some r.2 := by
  rw [← find_requestsOf]
  exact ⟨Dict.find_of_mem_entries (nodup_requestsOf locks), Dict.mem_entries_of_find⟩

theorem apart_iff (pieces : List (List (C × LockType))) :
    (pieces.flatMap groupOf).Pairwise Ok ↔ Apart pieces := by
  have hown : ∀ locks : List (C × LockType), (groupOf locks).Pairwise Ok := fun locks =>
    (pairwise_map.mp (nodup_requestsOf locks)).imp fun hne heq => absurd heq hne
  rw [pairwise_flatMap, and_iff_right fun locks _ => hown locks]
  simp only [mem_groupOf, Prod.forall, Ok, Apart]
  refine ⟨fun h => h.imp fun hp col t t' ht ht' => hp col t ht col t' ht' rfl,
    fun h => h.imp fun hp col t ht col' t' ht' heq => ?_⟩
  subst heq
  exact hp col t t' ht ht'

theorem LockKind.Alone.unharmed_iff (hK : K.Alone priority Inv)
    (pieces : List (List (C × LockType))) : Unharmed K pieces ↔ Apart pieces := by
  have hclean : Clean K priority Inv [] (⟨fun _ => K.fresh, []⟩ : Server C L) :=
    ⟨fun _ => hK.fresh, List.Pairwise.nil, by simp⟩
  have hrun := run_asks K.onDispatch groupOf (List.Pairwise Ok) (Clean K priority Inv)
    Server.Unharmed (fun h => h.ok) (fun h => (pairwise_append.mp h).1) hK.onDispatch
    (fun h hs' hun => ?_) (fun hs' hun => ?_) pieces hclean
  · rw [nil_append, apart_iff] at hrun
    refine ⟨fun ⟨s, hs, hun⟩ => hrun.2 s hs hun, fun hapart => ?_⟩
    obtain ⟨s, hs, hclean⟩ := hrun.1 hapart
    exact ⟨s, hs, hclean.un⟩
  · obtain ⟨t, ht, hun⟩ := onDispatch_requests hs' hun
    exact (hK.requests h _).2 t ht hun
  · obtain ⟨t, ht, hun⟩ := onDispatch_requests hs' hun
    exact run_back request_un ht hun

end Requests

theorem unharmed_iff_apart (priority : ℤ) (pieces : List (List (C × LockType))) :
    (Unharmed (.waitDie priority) pieces ↔ Apart pieces) ∧
      (Unharmed (.woundDie priority) pieces ↔ Apart pieces) := by
  have hfresh : Shared priority {} [] := ⟨WaitDieALock.inv_init.base, by simp, rfl, rfl⟩
  have hwait : (LockKind.waitDie priority).Alone priority WaitDieALock.Inv :=
    ⟨⟨WaitDieALock.inv_init, hfresh⟩, waitDie_takes⟩
  have hwound : (LockKind.woundDie priority).Alone priority fun _ => True := by
    refine ⟨⟨trivial, hfresh⟩, fun _ h type => ?_⟩
    obtain ⟨l', hl', htakes⟩ := woundDie_takes h type
    exact ⟨l', hl', trivial, htakes⟩
  exact ⟨hwait.unharmed_iff pieces, hwound.unharmed_iff pieces⟩

theorem second_piece_refused :
    (run (LockKind.waitDie 7).onDispatch ⟨fun _ => {}, []⟩ [[(0, .rlock)], [(0, .wlock)]]).map
        (fun s => s.answers) = some [(0, .granted 1), (0, .rejected)] ∧
      (run (LockKind.woundDie 7).onDispatch ⟨fun _ => {}, []⟩ [[(0, .rlock)], [(0, .wlock)]]).map
        (fun s => s.answers) = some [(0, .granted 1), (0, .wounding)] := by decide

end Fiss.Tpl
