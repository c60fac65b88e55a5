import Fiss.OceanVista.Gossip

/-! Watermarks are safe and never fall. A server has passed a watermark if none of its timestamps,
    neither those that are pending nor those it will hand out, is below it; what a server answers is
    a watermark it has passed, and it never takes that back. Every watermark the gossipers keep or
    send is below one that the servers it stands for have passed, or is the first one, which is zero.

    Zero itself is passed only by a server whose timestamps are positive: `last_clock_` is read
    before it was set, so a negative reading of the clock can be handed out as a timestamp. -/

namespace Fiss.OceanVista
open List Option Prod OrdMap

namespace TidMgr

/-- No pending transaction has a timestamp below `w`. -/
def Clear (w : OvTs) (m : TidMgr) : Prop := ∀ e ∈ m.sPhaseTxns.entries, w ≤ e.1

/-- Nor will one be handed out. -/
structure Passed (w : OvTs) (m : TidMgr) : Prop where
  clear : Clear w m
  clock : w.timestamp ≤ m.lastClock

/-- The watermarks from before the first answer are covered by positive timestamps alone. -/
structure Covers (m : TidMgr) (w : OvTs) : Prop where
  clear : Clear w m
  clock : w.timestamp ≤ m.lastClock ∨ w ≤ {}

/-- The clock has passed what is pending. -/
def Tidy (m : TidMgr) : Prop := ∀ e ∈ m.sPhaseTxns.entries, e.1.timestamp ≤ m.lastClock

variable {m m' : TidMgr} {w w' ovts : OvTs} {reading : ℤ} {txnId : ℕ}

theorem Passed.covers (h : Passed w m) : m.Covers w := ⟨h.clear, .inl h.clock⟩

theorem Covers.of_le (h : m.Covers w) (hle : w' ≤ w) : m.Covers w' := by
  refine ⟨fun e he => hle.trans (h.clear e he), ?_⟩
  rcases h.clock with hclock | hzero
  · rw [OvTs.le_iff] at hle
    exact .inl (by omega)
  · exact .inr (hle.trans hzero)

theorem getMonotTimestamp_spec (h : m.getMonotTimestamp reading = some (ovts, m')) :
    m.lastClock < ovts.timestamp ∧ m' = { m with lastClock := ovts.timestamp } ∧
      (0 ≤ m.lastClock ∨ 0 < reading → 0 < ovts.timestamp) := by
  unfold getMonotTimestamp at h
  split at h
  · next hle =>
    split at h
    · cases h
      exact ⟨by simp, rfl, fun hpos => by simp only; omega⟩
    · cases h
  · next hlt =>
    cases h
    exact ⟨by simpa using hlt, rfl, fun hpos => by simp only; omega⟩

theorem lt_of_timestamp_lt (h : w.timestamp < ovts.timestamp) : w < ovts :=
  OvTs.lt_iff.mpr (.inl h)

theorem Covers.lt_createTs (h : m.Covers w) (hpos : 0 ≤ m.lastClock ∨ 0 < reading)
    (hcreate : m.createTs txnId reading = some (ovts, m')) : w < ovts := by
  obtain ⟨⟨new, m1⟩, hnew, heq⟩ := map_eq_some_iff.mp hcreate
  obtain ⟨rfl, -⟩ := Prod.mk.inj heq
  obtain ⟨hlt, -, hnewPos⟩ := getMonotTimestamp_spec hnew
  rcases h.clock with hclock | hzero
  · exact lt_of_timestamp_lt (hclock.trans_lt hlt)
  · exact hzero.trans_lt (lt_of_timestamp_lt (hnewPos hpos))

/-- What a later state of a server keeps: the watermarks it has passed and those it covers. -/
structure Ahead (m m' : TidMgr) : Prop where
  tidy : Tidy m → Tidy m'
  passed : ∀ {w}, Passed w m → Passed w m'
  covers : ∀ {w}, m.Covers w → m'.Covers w

theorem Ahead.refl (m : TidMgr) : Ahead m m := ⟨id, id, id⟩

theorem createTs_ahead (hpos : 0 ≤ m.lastClock ∨ 0 < reading)
    (hcreate : m.createTs txnId reading = some (ovts, m')) : Ahead m m' := by
  have hafter : ∀ {w}, m.Covers w → w < ovts := fun h => h.lt_createTs hpos hcreate
  obtain ⟨⟨new, m1⟩, hnew, heq⟩ := map_eq_some_iff.mp hcreate
  obtain ⟨rfl, rfl⟩ := Prod.mk.inj heq
  obtain ⟨hlt, rfl, -⟩ := getMonotTimestamp_spec hnew
  have hclear : ∀ {w}, m.Covers w → ∀ e ∈ (m.sPhaseTxns.set new txnId).entries, w ≤ e.1 := by
    intro w h e he
    rcases mem_place he with rfl | he
    · exact (hafter h).le
    · exact h.clear e he
  refine ⟨fun h e he => ?_, fun h => ⟨hclear h.covers, h.clock.trans hlt.le⟩,
    fun h => ⟨hclear h, h.clock.imp_left fun hclock => hclock.trans hlt.le⟩⟩
  rcases mem_place he with rfl | he
  · exact le_rfl
  · exact (h e he).trans hlt.le

theorem storedTs_ahead {timestamp serverId : ℤ} (h : m.storedTs txnId timestamp serverId = some m') :
    Ahead m m' := by
  unfold storedTs at h
  dsimp only at h
  split at h
  · cases h
    have hsub : ∀ e ∈ (m.sPhaseTxns.erase ⟨timestamp, serverId⟩).entries, e ∈ m.sPhaseTxns.entries :=
      fun e he => mem_of_mem_filter he
    exact ⟨fun h e he => h e (hsub e he), fun h => ⟨fun e he => h.clear e (hsub e he), h.clock⟩,
      fun h => ⟨fun e he => h.clear e (hsub e he), h.clock⟩⟩
  · cases h

theorem getServerVWatermark_spec (htidy : Tidy m)
    (h : m.getServerVWatermark reading = some (w, m')) :
    Passed w m' ∧ (∀ {v}, Passed v m → v ≤ w) ∧ Ahead m m' := by
  unfold getServerVWatermark at h
  split at h
  · next hnil =>
    obtain ⟨hlt, rfl, -⟩ := getMonotTimestamp_spec h
    have hnone : ∀ {p : OvTs × ℕ → Prop}, ∀ e ∈ m.sPhaseTxns.entries, p e := by
      rw [hnil]
      intro p e he
      cases he
    refine ⟨⟨hnone, le_rfl⟩, fun hv => (lt_of_timestamp_lt (hv.clock.trans_lt hlt)).le,
      fun _ => hnone, fun hv => ⟨hnone, hv.clock.trans hlt.le⟩,
      fun hv => ⟨hnone, hv.clock.imp_left fun hclock => hclock.trans hlt.le⟩⟩
  · next first rest hentries =>
    cases h
    have hmem : first ∈ m.sPhaseTxns.entries := hentries ▸ mem_cons_self
    refine ⟨⟨?_, htidy first hmem⟩, fun hv => hv.clear first hmem, Ahead.refl m⟩
    have hsorted := m.sPhaseTxns.sorted
    rw [Clear, hentries]
    rw [hentries] at hsorted
    exact forall_mem_cons.mpr ⟨le_rfl, fun e he => ((pairwise_cons.mp hsorted).1 e he).le⟩

end TidMgr

/-! ### The gossipers -/

section

variable {marks : OrdMap ℕ OvTs} {k k' : ℕ} {w w' : OvTs}

theorem find_raise : (raise marks k w).find k' =
    if k' = k then some (max ((marks.find k).getD {}) w) else marks.find k' := by
  rw [raise, find_set]
  refine if_congr Iff.rfl (congrArg some ?_) rfl
  split
  · next hlt => exact (max_eq_right hlt.le).symm
  · next hnot => exact (max_eq_left (not_lt.mp hnot)).symm

theorem minOvts_le (h : minOvts marks = some w) (hk : marks.find k = some w') : w ≤ w' := by
  obtain ⟨first, -, rfl⟩ := map_eq_some_iff.mp h
  have hfold : ∀ (l : List (ℕ × OvTs)) (least : OvTs),
      l.foldl (fun m r => if r.2 < m then r.2 else m) least ≤ least ∧
        ∀ e ∈ l, l.foldl (fun m r => if r.2 < m then r.2 else m) least ≤ e.2 := by
    intro l
    induction l with
    | nil => simp
    | cons e l ih =>
      intro least
      obtain ⟨hle, hall⟩ := ih (if e.2 < least then e.2 else least)
      have hmin : (if e.2 < least then e.2 else least) ≤ least ∧
          (if e.2 < least then e.2 else least) ≤ e.2 := by
        split
        · next hlt => exact ⟨hlt.le, le_rfl⟩
        · next hnot => exact ⟨le_rfl, not_lt.mp hnot⟩
      exact ⟨hle.trans hmin.1, forall_mem_cons.mpr ⟨hle.trans hmin.2, hall⟩⟩
  exact (hfold marks.entries first.2).2 (k, w') (find_eq_some.mp hk)

/-- Every server of the data centre `d` covers `w`. -/
def CoversDc (C : Config) (covers : ℕ → OvTs → Prop) (d : ℕ) (w : OvTs) : Prop :=
  ∀ i < C.sites, C.dc i = d → covers i w

def CoversAll (C : Config) (covers : ℕ → OvTs → Prop) (w : OvTs) : Prop := ∀ i < C.sites, covers i w

/-- What the gossiper of the data centre `d` knows is covered by the servers it is about, and it
    leaves out none of them. -/
structure Informed (C : Config) (covers : ℕ → OvTs → Prop) (d : ℕ) (g : OVGossiper) : Prop where
  name : g.myDcname = d
  members : ∀ i < C.sites, C.dc i = d → (g.siteWatermarks.find i).isSome
  known : ∀ i < C.sites, (g.dcWatermarks.find (C.dc i)).isSome
  sites : ∀ i w, g.siteWatermarks.find i = some w → covers i w
  dcs : ∀ d' w, g.dcWatermarks.find d' = some w → CoversDc C covers d' w
  mine : CoversAll C covers g.myVwatermark

/-- A message carries a watermark that those it comes from cover; an answer of a server carries one
    it has passed. -/
def Message.Sound (C : Config) (covers passed : ℕ → OvTs → Prop) : Message → Prop
  | .publish _ _ w => CoversAll C covers w
  | .publishAck _ site w => passed site w
  | .exchange source _ w => CoversDc C covers source w
  | .exchangeAck _ target w => CoversDc C covers target w

variable {C : Config} {covers covers' passed passed' : ℕ → OvTs → Prop} {d d' : ℕ}
  {g g' : OVGossiper}

theorem Informed.mono (h : Informed C covers d g) (hc : ∀ i w, covers i w → covers' i w) :
    Informed C covers' d g where
  name := h.name
  members := h.members
  known := h.known
  sites i w hw := hc i w (h.sites i w hw)
  dcs d' w hw i hi hd := hc i w (h.dcs d' w hw i hi hd)
  mine i hi := hc i _ (h.mine i hi)

theorem Message.Sound.mono {msg : Message} (h : msg.Sound C covers passed)
    (hc : ∀ i w, covers i w → covers' i w) (hp : ∀ i w, passed i w → passed' i w) :
    msg.Sound C covers' passed' := by
  cases msg with
  | publish dc site w => exact fun i hi => hc i w (h i hi)
  | publishAck dc site w => exact hp site w h
  | exchange source target w | exchangeAck source target w =>
    exact fun i hi hd => hc i w (h i hi hd)

theorem of_find_raise {p : ℕ → OvTs → Prop} (hall : ∀ k w, marks.find k = some w → p k w)
    (hold : p k ((marks.find k).getD {})) (hnew : p k w)
    (hfind : (raise marks k w).find k' = some w') : p k' w' := by
  rw [find_raise] at hfind
  split at hfind
  · next heq =>
    subst heq
    obtain rfl := some.inj hfind
    rcases max_choice ((marks.find k').getD {}) w with hmax | hmax
    · rw [hmax]
      exact hold
    · rw [hmax]
      exact hnew
  · exact hall k' w' hfind

theorem isSome_find_raise (h : (marks.find k').isSome) : ((raise marks k w).find k').isSome := by
  rw [find_raise]
  split
  · rfl
  · exact h

section
variable (h : Informed C covers d g)
include h

theorem Informed.own (d' : ℕ) : CoversDc C covers d' ((g.dcWatermarks.find d').getD {}) := by
  intro i hi hd
  obtain ⟨w, hw⟩ := isSome_iff_exists.mp (h.known i hi)
  rw [hd] at hw
  rw [hw]
  exact h.dcs d' w hw i hi hd

theorem Informed.raiseDc (hw : CoversDc C covers d' w) :
    Informed C covers d { g with dcWatermarks := raise g.dcWatermarks d' w } :=
  { h with
    known := fun i hi => isSome_find_raise (h.known i hi)
    dcs := fun _ _ hv => of_find_raise h.dcs (h.own d') hw hv }

variable (hanti : ∀ i {v w : OvTs}, v ≤ w → covers i w → covers i v)
include hanti

theorem Informed.publishAck {site : ℕ} (hw : covers site w)
    (hack : g.publishAck site w = some g') : Informed C covers d g' := by
  unfold OVGossiper.publishAck at hack
  split at hack
  · cases hack
  · next hsome =>
    obtain ⟨old, hold⟩ := ne_none_iff_exists'.mp (mt isNone_iff_eq_none.mpr hsome)
    have h1 : Informed C covers d { g with
        publishAckReceived := g.publishAckReceived.insert site
        siteWatermarks := raise g.siteWatermarks site w } :=
      { h with
        members := fun i hi hd => isSome_find_raise (h.members i hi hd)
        sites := fun i v hv =>
          of_find_raise h.sites (by rw [hold]; exact h.sites site old hold) hw hv }
    dsimp only at hack
    split at hack
    · obtain ⟨least, hleast, rfl⟩ := map_eq_some_iff.mp hack
      have hmin : CoversDc C covers d least := by
        intro i hi hd
        obtain ⟨v, hv⟩ := isSome_iff_exists.mp (h1.members i hi hd)
        exact hanti i (minOvts_le hleast hv) (h1.sites i v hv)
      refine { h1 with known := fun i hi => ?_, dcs := fun d' v hv => ?_ }
      · rw [find_set]
        split
        · rfl
        · exact h.known i hi
      · rw [find_set] at hv
        split at hv
        · next heq =>
          obtain rfl := some.inj hv
          rw [heq, h.name]
          exact hmin
        · exact h.dcs d' v hv
    · cases hack
      exact h1

theorem Informed.exchangeAck {site : ℕ} (hw : CoversDc C covers d' w)
    (hack : g.exchangeAck site d' w = some g') : Informed C covers d g' := by
  unfold OVGossiper.exchangeAck at hack
  split at hack
  · cases hack
  · have h1 : Informed C covers d { g with
        exchangeAckReceived := g.exchangeAckReceived.insert site
        dcWatermarks := raise g.dcWatermarks d' w } := { h.raiseDc hw with }
    dsimp only at hack
    split at hack
    · obtain ⟨least, hleast, rfl⟩ := map_eq_some_iff.mp hack
      refine { h1 with mine := fun i hi => ?_ }
      obtain ⟨v, hv⟩ := isSome_iff_exists.mp (h1.known i hi)
      exact hanti i (minOvts_le hleast hv) (h1.dcs _ v hv i hi rfl)
    · cases hack
      exact h1

end

end

/-! ### Runs -/

section

/-- The watermarks the server `site` has answered, in order. -/
def answers (site : ℕ) (messages : List Message) : List OvTs :=
  messages.filterMap fun
    | .publishAck _ site' w => if site' = site then some w else none
    | _ => none

def System.covers (s : System) (i : ℕ) (w : OvTs) : Prop := (s.servers i).tidMgr.Covers w

def System.passed (s : System) (i : ℕ) (w : OvTs) : Prop := (s.servers i).tidMgr.Passed w

structure Inv (C : Config) (s : System) : Prop where
  tidy : ∀ i, (s.servers i).tidMgr.Tidy
  servers : ∀ i, CoversAll C s.covers (s.servers i).vwatermark
  gossipers : ∀ d, Informed C s.covers d (s.gossipers d)
  messages : ∀ m ∈ s.messages, m.Sound C s.covers s.passed
  answers : ∀ i, (answers i s.messages).Pairwise (· ≤ ·)

/-- No watermark falls, neither one a server was told nor one a gossiper keeps of a server. -/
structure Rises (s s' : System) : Prop where
  servers : ∀ i, (s.servers i).vwatermark ≤ (s'.servers i).vwatermark
  sites : ∀ d i w, (s.gossipers d).siteWatermarks.find i = some w →
    ∃ w', (s'.gossipers d).siteWatermarks.find i = some w' ∧ w ≤ w'

/-- The timestamps handed out are positive. -/
def Timely (s : System) : Event → Prop
  | .createTs site _ reading => 0 ≤ (s.servers site).tidMgr.lastClock ∨ 0 < reading
  | _ => True

instance (s : System) : ∀ e, Decidable (Timely s e)
  | .createTs .. => inferInstanceAs (Decidable (_ ∨ _))
  | .storedTs .. | .aggregate _ | .onPublish .. | .publishAck .. | .gossip _ | .onExchange ..
  | .exchangeAck .. => isTrue trivial

variable {C : Config} {s s' t : System} {e : Event} {i d : ℕ} {x : SchedulerOV} {g : OVGossiper}

theorem mem_answers {w : OvTs} {messages : List Message} :
    w ∈ answers i messages ↔ ∃ dc, .publishAck dc i w ∈ messages := by
  rw [answers, mem_filterMap]
  constructor
  · rintro ⟨m, hm, hw⟩
    cases m with
    | publishAck dc site v =>
      simp only [ite_none_right_eq_some, some.injEq] at hw
      obtain ⟨rfl, rfl⟩ := hw
      exact ⟨dc, hm⟩
    | publish | exchange | exchangeAck => cases hw
  · rintro ⟨dc, hm⟩
    exact ⟨_, hm, by simp⟩

theorem covers_anti (s : System) (i : ℕ) {v w : OvTs} (hle : v ≤ w) (h : s.covers i w) :
    s.covers i v := h.of_le hle

theorem Rises.refl (s : System) : Rises s s := ⟨fun _ => le_rfl, fun _ _ w hw => ⟨w, hw, le_rfl⟩⟩

theorem Rises.trans (h : Rises s t) (h' : Rises t s') : Rises s s' := by
  refine ⟨fun i => (h.servers i).trans (h'.servers i), fun d i w hw => ?_⟩
  obtain ⟨v, hv, hwv⟩ := h.sites d i w hw
  obtain ⟨v', hv', hvv'⟩ := h'.sites d i v hv
  exact ⟨v', hv', hwv.trans hvv'⟩

theorem Rises.setServer (h : (s.servers i).vwatermark ≤ x.vwatermark) :
    Rises s (s.setServer i x) := by
  refine ⟨fun j => ?_, (Rises.refl s).sites⟩
  rcases eq_or_ne j i with rfl | hne
  · simpa [System.setServer] using h
  · simp [System.setServer, hne]

theorem Rises.setGossiper (h : ∀ i w, (s.gossipers d).siteWatermarks.find i = some w →
    ∃ w', g.siteWatermarks.find i = some w' ∧ w ≤ w') : Rises s (s.setGossiper d g) := by
  refine ⟨(Rises.refl s).servers, fun d' i w hw => ?_⟩
  rcases eq_or_ne d' d with rfl | hne
  · simpa [System.setGossiper] using h i w hw
  · exact ⟨w, by simpa [System.setGossiper, hne] using hw, le_rfl⟩

theorem Rises.keep (h : g.siteWatermarks = (s.gossipers d).siteWatermarks) :
    Rises s (s.setGossiper d g) := by
  refine .setGossiper fun i w hw => ?_
  rw [h]
  exact ⟨w, hw, le_rfl⟩

theorem Rises.send (h : Rises s t) (messages : List Message) : Rises s (t.send messages) :=
  ⟨h.servers, h.sites⟩

theorem Inv.setServer (h : Inv C s) (hahead : (s.servers i).tidMgr.Ahead x.tidMgr)
    (hx : CoversAll C s.covers x.vwatermark) : Inv C (s.setServer i x) := by
  have hserver : ∀ {p : SchedulerOV → Prop}, (p (s.servers i) → p x) → ∀ j, p (s.servers j) →
      p ((s.setServer i x).servers j) := by
    intro p hx j hj
    rcases eq_or_ne j i with rfl | hne
    · simpa [System.setServer] using hx hj
    · simpa [System.setServer, hne] using hj
  have hcovers : ∀ j w, s.covers j w → (s.setServer i x).covers j w := fun j w =>
    hserver (p := fun y => y.tidMgr.Covers w) hahead.covers j
  have hpassed : ∀ j w, s.passed j w → (s.setServer i x).passed j w := fun j w =>
    hserver (p := fun y => y.tidMgr.Passed w) hahead.passed j
  refine ⟨fun j => ?_, fun j k hk => hcovers k _ ?_, fun d => (h.gossipers d).mono hcovers,
    fun m hm => (h.messages m hm).mono hcovers hpassed, h.answers⟩
  · exact hserver (p := fun y => y.tidMgr.Tidy) hahead.tidy j (h.tidy j)
  · exact hserver (p := fun y => s.covers k y.vwatermark) (fun _ => hx k hk) j (h.servers j k hk)

theorem Inv.setGossiper (h : Inv C s) (hg : Informed C s.covers d g) :
    Inv C (s.setGossiper d g) := by
  refine { h with gossipers := fun d' => ?_ }
  rcases eq_or_ne d' d with rfl | hne
  · exact (congrArg (Informed C s.covers d') (Function.update_self ..)).mpr hg
  · exact (congrArg (Informed C s.covers d') (Function.update_of_ne hne ..)).mpr (h.gossipers d')

theorem Inv.send (h : Inv C s) {messages : List Message}
    (hsound : ∀ m ∈ messages, m.Sound C s.covers s.passed)
    (hrising : ∀ i, (OceanVista.answers i messages).Pairwise (· ≤ ·))
    (hafter : ∀ i, ∀ v ∈ OceanVista.answers i s.messages,
      ∀ w ∈ OceanVista.answers i messages, v ≤ w) : Inv C (s.send messages) := by
  refine { h with messages := fun m hm => ?_, answers := fun i => ?_ }
  · exact (mem_append.mp hm).elim (h.messages m) (hsound m)
  · have happend : OceanVista.answers i (s.send messages).messages =
        OceanVista.answers i s.messages ++ OceanVista.answers i messages := filterMap_append ..
    rw [happend, pairwise_append]
    exact ⟨h.answers i, hrising i, hafter i⟩

/-- A gossiper sends messages that are no answers. -/
theorem Inv.gossips (h : Inv C s) (hg : Informed C s.covers d g)
    (hsites : g.siteWatermarks = (s.gossipers d).siteWatermarks) {messages : List Message}
    (hsound : ∀ m ∈ messages, m.Sound C s.covers s.passed)
    (hother : ∀ i, OceanVista.answers i messages = []) :
    Inv C ((s.setGossiper d g).send messages) ∧ Rises s ((s.setGossiper d g).send messages) := by
  refine ⟨(h.setGossiper hg).send hsound (fun i => ?_) fun i v _ w hw => ?_,
    (Rises.keep hsites).send _⟩
  · rw [hother i]
    exact .nil
  · rw [hother i] at hw
    cases hw

theorem le_find_raise {marks : OrdMap ℕ OvTs} {k k' : ℕ} {w v : OvTs}
    (h : marks.find k' = some v) : ∃ v', (raise marks k w).find k' = some v' ∧ v ≤ v' := by
  rw [find_raise]
  split
  · next heq =>
    subst heq
    rw [h]
    exact ⟨_, rfl, le_max_left _ _⟩
  · exact ⟨v, h, le_rfl⟩

theorem publishAck_siteWatermarks {g g' : OVGossiper} {site : ℕ} {w : OvTs}
    (h : g.publishAck site w = some g') : g'.siteWatermarks = raise g.siteWatermarks site w := by
  unfold OVGossiper.publishAck at h
  dsimp only at h
  split at h
  · cases h
  · split at h
    · obtain ⟨_, -, rfl⟩ := map_eq_some_iff.mp h
      rfl
    · cases h
      rfl

theorem exchangeAck_siteWatermarks {g g' : OVGossiper} {site dc : ℕ} {w : OvTs}
    (h : g.exchangeAck site dc w = some g') : g'.siteWatermarks = g.siteWatermarks := by
  unfold OVGossiper.exchangeAck at h
  dsimp only at h
  split at h
  · cases h
  · split at h
    · obtain ⟨_, -, rfl⟩ := map_eq_some_iff.mp h
      rfl
    · cases h
      rfl

/-- Every step keeps the invariant and lowers no watermark. -/
theorem inv_step (h : Inv C s) (htimely : Timely s e) (hstep : step C s e = some s') :
    Inv C s' ∧ Rises s s' := by
  cases e with
  | createTs site txnId reading =>
    obtain ⟨-, hstep⟩ := ite_none_right_eq_some.mp hstep
    obtain ⟨x, hx, rfl⟩ := map_eq_some_iff.mp hstep
    obtain ⟨⟨ovts, m⟩, hm, rfl⟩ := map_eq_some_iff.mp hx
    exact ⟨h.setServer (TidMgr.createTs_ahead htimely hm) (h.servers site), .setServer le_rfl⟩
  | storedTs site txnId timestamp serverId =>
    obtain ⟨-, hstep⟩ := ite_none_right_eq_some.mp hstep
    obtain ⟨x, hx, rfl⟩ := map_eq_some_iff.mp hstep
    obtain ⟨m, hm, rfl⟩ := map_eq_some_iff.mp hx
    exact ⟨h.setServer (TidMgr.storedTs_ahead hm) (h.servers site), .setServer le_rfl⟩
  | aggregate dc =>
    obtain ⟨-, hstep⟩ := ite_none_right_eq_some.mp hstep
    obtain rfl := some.inj hstep
    have hg := h.gossipers dc
    refine h.gossips (g := (s.gossipers dc).aggregate.2) { hg with } rfl (fun m hm => ?_)
      fun i => ?_
    · obtain ⟨site, -, rfl⟩ := mem_map.mp hm
      exact hg.mine
    · simp [answers, OVGossiper.aggregate, filterMap_map]
  | onPublish dc site w reading =>
    obtain ⟨hmem, hstep⟩ := ite_none_right_eq_some.mp hstep
    obtain ⟨⟨w', x⟩, hx, rfl⟩ := map_eq_some_iff.mp hstep
    obtain ⟨⟨ovts, m⟩, hm, heq⟩ := map_eq_some_iff.mp hx
    obtain ⟨rfl, rfl⟩ := mk.inj heq
    obtain ⟨hpassed, hlast, hahead⟩ := TidMgr.getServerVWatermark_spec (h.tidy site) hm
    have honly : ∀ {i v}, v ∈ answers i [.publishAck dc site ovts] → i = site ∧ v = ovts := by
      intro i v hv
      obtain ⟨dc', hdc⟩ := mem_answers.mp hv
      cases mem_singleton.mp hdc
      exact ⟨rfl, rfl⟩
    refine ⟨(h.setServer hahead fun i hi => ?_).send (fun m hm => ?_) (fun i => ?_) ?_,
      (Rises.setServer ?_).send _⟩
    · dsimp only
      split
      · exact h.messages _ hmem i hi
      · exact h.servers site i hi
    · rw [mem_singleton.mp hm]
      simpa [Message.Sound, System.passed, System.setServer] using hpassed
    · rw [answers, filterMap_cons]
      split
      · exact .nil
      · exact pairwise_singleton ..
    · intro i v hv w' hw'
      obtain ⟨rfl, rfl⟩ := honly hw'
      obtain ⟨dc', hdc⟩ := mem_answers.mp hv
      exact hlast (h.messages _ hdc)
    · dsimp only
      split
      · next hlt => exact hlt.le
      · exact le_rfl
  | publishAck dc site w =>
    obtain ⟨hmem, hstep⟩ := ite_none_right_eq_some.mp hstep
    obtain ⟨g, hg, rfl⟩ := map_eq_some_iff.mp hstep
    have hpassed : s.passed site w := h.messages _ hmem
    refine ⟨h.setGossiper ((h.gossipers dc).publishAck (covers_anti s) hpassed.covers hg),
      .setGossiper fun i v hv => ?_⟩
    rw [publishAck_siteWatermarks hg]
    exact le_find_raise hv
  | gossip dc =>
    obtain ⟨-, hstep⟩ := ite_none_right_eq_some.mp hstep
    obtain rfl := some.inj hstep
    have hg := h.gossipers dc
    refine h.gossips (g := (s.gossipers dc).gossip.2) { hg with } rfl (fun m hm => ?_) fun i => ?_
    · obtain ⟨d, -, rfl⟩ := mem_map.mp hm
      exact hg.own _
    · simp [answers, OVGossiper.gossip, filterMap_map]
  | onExchange source target w =>
    obtain ⟨hmem, hstep⟩ := ite_none_right_eq_some.mp hstep
    obtain rfl := some.inj hstep
    have hg := (h.gossipers target).raiseDc (h.messages _ hmem)
    refine h.gossips hg rfl (fun m hm => ?_) fun i => rfl
    rw [mem_singleton.mp hm]
    have hown := hg.own (s.gossipers target).myDcname
    exact (congrArg (CoversDc C s.covers · _) hg.name).mp hown
  | exchangeAck source target w =>
    obtain ⟨hmem, hstep⟩ := ite_none_right_eq_some.mp hstep
    obtain ⟨g, hg, rfl⟩ := map_eq_some_iff.mp hstep
    exact ⟨h.setGossiper ((h.gossipers source).exchangeAck (covers_anti s) (h.messages _ hmem) hg),
      .keep (exchangeAck_siteWatermarks hg)⟩

theorem inv_init (C : Config) (clock : ℕ → ℤ) : Inv C (init C clock) := by
  have hzero : ∀ i w, w = {} → (init C clock).covers i w := by
    rintro i w rfl
    exact ⟨fun e he => (by cases he), .inr le_rfl⟩
  refine ⟨fun i e he => (by cases he), fun i j _ => hzero j _ rfl, fun d => ?_,
    fun m hm => (by cases hm), fun i => .nil⟩
  refine ⟨rfl, fun i hi hd => ?_, fun i hi => ?_, fun i w hw => hzero i w ?_,
    fun d' w hw i _ _ => hzero i w ?_, fun i _ => hzero i _ rfl⟩
  · change ((OVGossiper.new C d).siteWatermarks.find i).isSome
    rw [OVGossiper.new, find_foldl_set, if_pos (by simp [hi, hd])]
    rfl
  · change ((OVGossiper.new C d).dcWatermarks.find (C.dc i)).isSome
    have hmem : C.dc i ∈ C.dcs := mem_map_of_mem (mem_range.mpr hi)
    rw [OVGossiper.new, find_foldl_set, if_pos hmem]
    rfl
  · change (OVGossiper.new C d).siteWatermarks.find i = some w at hw
    rw [OVGossiper.new, find_foldl_set] at hw
    split at hw
    · exact (some.inj hw).symm
    · cases hw
  · change (OVGossiper.new C d).dcWatermarks.find d' = some w at hw
    rw [OVGossiper.new, find_foldl_set] at hw
    split at hw
    · exact (some.inj hw).symm
    · cases hw

end

/-- In every run that hands out positive timestamps only: what the vwatermark of a scheduler was at
    some time is never above a timestamp that is pending at a server then or later, or that a server
    creates later, and no watermark of a site ever falls, be it the one its scheduler was told, the
    one its gossiper keeps or the one it answers with. -/
theorem watermark_safe (C : Config) (clock : ℕ → ℤ) (es es' : List Event) {s s' : System}
    (hs : run (step C) (init C clock) es = some s) (hs' : run (step C) s es' = some s')
    (htimely : Along (step C) Timely (init C clock) es) (htimely' : Along (step C) Timely s es') :
    (∀ i, ∀ j < C.sites, ∀ e ∈ (s'.servers j).tidMgr.sPhaseTxns.entries,
      ¬ e.1 < (s.servers i).vwatermark) ∧
    (∀ i, ∀ j < C.sites, ∀ txnId reading ovts m, Timely s' (.createTs j txnId reading) →
      (s'.servers j).tidMgr.createTs txnId reading = some (ovts, m) →
      ¬ ovts < (s.servers i).vwatermark) ∧
    (∀ i, (s.servers i).vwatermark ≤ (s'.servers i).vwatermark) ∧
    (∀ d i w, (s.gossipers d).siteWatermarks.find i = some w →
      ∃ w', (s'.gossipers d).siteWatermarks.find i = some w' ∧ w ≤ w') ∧
    ∀ i, (answers i s'.messages).Pairwise (· ≤ ·) := by
  have hinv : Inv C s := throughout_last (throughout_of_inv
    (fun _ _ _ h htimely hstep => (inv_step h htimely hstep).1) (inv_init C clock) htimely) hs
  obtain ⟨hinv', hrises⟩ : Inv C s' ∧ Rises s s' := by
    refine throughout_last (P := fun t => Inv C t ∧ Rises s t)
      (throughout_of_inv (fun t e t' h hC hstep => ?_) ⟨hinv, .refl s⟩ htimely') hs'
    obtain ⟨ht', hrises⟩ := inv_step h.1 hC hstep
    exact ⟨ht', h.2.trans hrises⟩
  have hcovers : ∀ i, ∀ j < C.sites, (s'.servers j).tidMgr.Covers (s.servers i).vwatermark :=
    fun i j hj => (hinv'.servers i j hj).of_le (hrises.servers i)
  exact ⟨fun i j hj e he => not_lt.mpr ((hcovers i j hj).clear e he),
    fun i j hj _ _ _ _ hpos hcreate => not_lt.mpr ((hcovers i j hj).lt_createTs hpos hcreate).le,
    hrises.servers, hrises.sites, hinv'.answers⟩

/-- Two servers of two data centres, one of which has a transaction at 5 when the first round of
    messages goes through; the watermark of both data centres comes to be 5. -/
def firstRound : List Event :=
  [.createTs 0 7 5, .aggregate 0, .onPublish 0 0 {} 6, .publishAck 0 0 ⟨5, 0⟩,
    .aggregate 1, .onPublish 1 1 {} 8, .publishAck 1 1 ⟨8, 1⟩, .gossip 1,
    .onExchange 1 0 ⟨8, 1⟩, .exchangeAck 1 0 ⟨5, 0⟩, .aggregate 1, .onPublish 1 1 ⟨5, 0⟩ 9]

/-- With the clocks at 0 the second server is told 5 and the first has no earlier transaction. -/
theorem watermark_safe_firstRound :
    ∃ s s', run (step ⟨2, id, id⟩) (init ⟨2, id, id⟩ fun _ => 0) firstRound = some s ∧
      run (step ⟨2, id, id⟩) s [.storedTs 0 7 5 0, .createTs 0 8 4] = some s' ∧
      (s.servers 1).vwatermark = ⟨5, 0⟩ ∧ (s'.servers 0).tidMgr.sPhaseTxns.keys = [⟨6, 0⟩] ∧
      ∀ e ∈ (s'.servers 0).tidMgr.sPhaseTxns.entries, ¬ e.1 < (s.servers 1).vwatermark := by
  have hend : ((run (step ⟨2, id, id⟩) (init ⟨2, id, id⟩ fun _ => 0) firstRound).bind fun s =>
      (run (step ⟨2, id, id⟩) s [.storedTs 0 7 5 0, .createTs 0 8 4]).map fun s' =>
        ((s.servers 1).vwatermark, (s'.servers 0).tidMgr.sPhaseTxns.keys)) =
      some (⟨5, 0⟩, [⟨6, 0⟩]) := by decide +kernel
  obtain ⟨s, hs, hend⟩ := bind_eq_some_iff.mp hend
  obtain ⟨s', hs', heq⟩ := map_eq_some_iff.mp hend
  obtain ⟨hw, hkeys⟩ := mk.inj heq
  refine ⟨s, s', hs, hs', hw, hkeys, ?_⟩
  exact (watermark_safe ⟨2, id, id⟩ (fun _ => 0) firstRound [.storedTs 0 7 5 0, .createTs 0 8 4]
    hs hs' (by decide +kernel)
    fun _ _ => ⟨trivial, fun _ _ => ⟨.inr (by decide), trivial⟩⟩).1 1 0 (by decide)

/-- Before 1970 a timestamp may be negative, below the watermark the schedulers start with. -/
theorem negative_below_watermark :
    ∃ s, run (step ⟨1, id, id⟩) (init ⟨1, id, id⟩ fun _ => -5) [.createTs 0 7 (-3)] = some s ∧
      ∃ e ∈ (s.servers 0).tidMgr.sPhaseTxns.entries, e.1 < (s.servers 0).vwatermark := by
  have hend : (run (step ⟨1, id, id⟩) (init ⟨1, id, id⟩ fun _ => -5) [.createTs 0 7 (-3)]).map
      (fun s => ((s.servers 0).tidMgr.sPhaseTxns.entries, (s.servers 0).vwatermark)) =
      some ([(⟨-3, 0⟩, 7)], {}) := by decide +kernel
  obtain ⟨s, hs, heq⟩ := map_eq_some_iff.mp hend
  obtain ⟨hentries, hw⟩ := mk.inj heq
  refine ⟨s, hs, (⟨-3, 0⟩, 7), ?_, ?_⟩
  · rw [hentries]
    exact mem_singleton_self _
  · rw [hw]
    decide

end Fiss.OceanVista
