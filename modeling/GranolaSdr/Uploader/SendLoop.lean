import GranolaSdr.Lib.Run
import GranolaSdr.Uploader.Collector
import GranolaSdr.Uploader.Sender

/-!
# The main loop of the uploader

`main` of `src/psk_uploader.py`: decoded messages are taken in and buffered, and once in an interval
the buffer is sent as one packet. If sending raises an `OSError` the buffer is kept for the next
attempt; any other exception leaves the loop.

## Main definitions

* `accept`: which messages are buffered;
* `send_step`: one attempt to send;
* `step`, `out`: the loop, and the packets that it sends;
* `WellSized`: a packet and its sets are as long as they say;
* `Accounted`, `Sequenced`: no report is lost, and the sequence numbers count the reports sent.

## Main results

* `build_packet_wellSized_iff`: exactly when a packet is built and no exception leaves the loop;
* `accounted_and_sequenced`: runs that send no packet whose block was full account for all reports.
-/

namespace GranolaSdr.Uploader

open Ipfix Run

/-! ## Taking messages in -/

/-- The classes of characters that Python's text methods test. -/
structure CharClasses where
  isspace : Char → Bool
  isalpha : Char → Bool
  isdigit : Char → Bool

/-- The search for the sender of a text, whatever the classes of its characters. -/
def extract_sender (classes : CharClasses) (text : List Char) : List Char :=
  (((text.splitOnP classes.isspace).filter (· ≠ [])).find? fun word =>
    !(FT8_SKIP.contains word || word.head? == some '<') &&
      (word.any classes.isalpha && word.any classes.isdigit)).getD []

/-- The classes of the ASCII characters. -/
def asciiClasses : CharClasses := ⟨isspace, Char.isAlpha, Char.isDigit⟩

theorem extract_sender_asciiClasses (text : List Char) :
    extract_sender asciiClasses text = extract_ft8_sender text := rfl

/-- The two topics that are subscribed to. -/
inductive Topic
  | ft8
  | js8
  deriving DecidableEq

/-- What a decoded message holds. -/
structure Decoded where
  call : Option (List Char)
  freq : Option Number
  snr : Number
  unix : Number

/-- The band filter, on a number of a message. -/
def in_band_number (freq : Number) : Except PyError Bool := do
  let f ← freq.toInt
  return BAND_WINDOWS.any fun (lo, hi) => lo ≤ f && f ≤ hi

/-- The mode that the messages of a topic are given. -/
def Topic.mode : Topic → List Char
  | js8 => "JS8".toList
  | ft8 => "FT8".toList

/-- The callsign of a message: an FT8 message has its whole text there. -/
def Decoded.sender (classes : CharClasses) (msg : Decoded) : Topic → List Char
  | .js8 => msg.call.getD []
  | .ft8 => extract_sender classes (msg.call.getD [])

/-- The report that is buffered for a message. A `ValueError` of the band filter is caught. -/
def accept (classes : CharClasses) (topic : Topic) (msg : Decoded) :
    Except PyError (Option Report) :=
  let freq := msg.freq.getD (.int 0)
  if msg.sender classes topic = [] then .ok none
  else
    match in_band_number freq with
    | .ok true =>
      .ok (some ⟨msg.sender classes topic, freq, msg.snr, some topic.mode, msg.unix⟩)
    | .ok false => .ok none
    | .error .ValueError => .ok none
    | .error e => .error e

/-! ## Sending -/

/-- What the uploader is started with, and its session. -/
structure Config where
  rx_call : List Char
  rx_grid : List Char
  rx_rig : List Char
  interval : ℤ
  session_id : ℕ
  one_le_session_id : 1 ≤ session_id
  session_id_le : session_id ≤ 0xFFFFFFFF

/-- The variables of the main loop. -/
structure State where
  pending : List Report
  seq : ℕ
  packets_sent : ℕ
  last_template_time : ℚ
  last_upload : ℚ

/-- The clock as it is read during an attempt, in the order of the source, and whether the datagram
can be sent. -/
structure Attempt where
  due : ℚ
  template : ℚ
  stamp : ℚ
  packet : ℚ
  after : ℚ
  network : Bool

variable (cfg : Config)

/-- The packet of some reports, if it is built and sent. -/
def upload (reports : List Report) (seq : ℕ) (include_templates : Bool) (io : Attempt) :
    Except PyError (List UInt8) := do
  let pkt ← build_packet cfg.rx_call cfg.rx_grid cfg.rx_rig reports seq cfg.session_id
    include_templates (truncate io.packet)
  if io.network then return pkt else .error .OSError

/-- It is time to send, and there is something to send. -/
def Due (s : State) (io : Attempt) : Prop :=
  cfg.interval ≤ io.due - s.last_upload ∧ s.pending ≠ []

instance (s : State) (io : Attempt) : Decidable (Due cfg s io) := instDecidableAnd

/-- Templates go with the first three packets, and once an hour. -/
def include_tmpl (s : State) (io : Attempt) : Bool :=
  s.packets_sent < 3 || 3600 ≤ io.template - s.last_template_time

/-- The body of the `try` statement: the reports without duplicates, and the packet. -/
def try_upload (s : State) (io : Attempt) : Except PyError (List Report × List UInt8) := do
  let to_send ← dedup_reports s.pending
  let pkt ← upload cfg to_send s.seq (include_tmpl s io) io
  return (to_send, pkt)

/-- An attempt to send, with the packets that are sent. -/
def send_step (s : State) (io : Attempt) : Except PyError (State × List (List UInt8)) :=
  if Due cfg s io then
    let last_template_time := if include_tmpl s io then io.stamp else s.last_template_time
    match try_upload cfg s io with
    | .ok (to_send, pkt) =>
      .ok ({ pending := [], seq := s.seq + to_send.length, packets_sent := s.packets_sent + 1,
             last_template_time, last_upload := io.after }, [pkt])
    | .error .OSError =>
      .ok ({ s with last_template_time, last_upload := io.after - cfg.interval + 30 }, [])
    | .error e => .error e
  else .ok (s, [])

/-- A turn of the main loop. -/
inductive Action
  | receive (topic : Topic) (msg : Decoded)
  | attempt (io : Attempt)

variable (classes : CharClasses)

/-- What a turn does. There is no next state if an exception leaves the loop. -/
def step (s : State) : Action → Option State
  | .receive topic msg =>
    match accept classes topic msg with
    | .ok none => some s
    | .ok (some r) => some { s with pending := s.pending ++ [r] }
    | .error _ => none
  | .attempt io =>
    match send_step cfg s io with
    | .ok (s', _) => some s'
    | .error _ => none

/-- The packets that a turn sends. -/
def out (s : State) : Action → List (List UInt8)
  | .receive .. => []
  | .attempt io =>
    match send_step cfg s io with
    | .ok (_, sent) => sent
    | .error _ => []

/-- The state the loop starts in. -/
def init (last_upload : ℚ) : State := ⟨[], 0, 0, 0, last_upload⟩

/-! ## Packets of the right size -/

/-- A packet fits a datagram, and it and its sets are as long as they say. -/
structure WellSized (pkt : List UInt8) : Prop where
  length_le : pkt.length ≤ 65535
  announced : announcedLength pkt = pkt.length
  sets : Chained (pkt.drop 16)

variable {cfg classes}

/-- The packets that are built are of the right size. -/
theorem wellSized_of_build_packet {rx_call rx_grid rig : List Char} {reports : List Report}
    {seq session_id : ℕ} {include_templates : Bool} {now : ℤ} {pkt : List UInt8}
    (h : build_packet rx_call rx_grid rig reports seq session_id include_templates now = .ok pkt) :
    WellSized pkt := by
  obtain ⟨hsend, rfl⟩ := build_packet_eq_ok_iff.1 h
  obtain ⟨hlimit, hreceiver, hsender⟩ := hsend.length_le
  -- every set says how long it is, so the next one begins where it ends
  have hblock : ∀ id content, 4 + content.length < 65536 → ∀ body, Chained body →
      Chained (writeSet id content ++ body) := by
    intro id content hcontent body hbody
    apply hbody.cons
    · rw [length_writeSet]
      exact Nat.le_add_right ..
    · exact announcedLength_writeSet hcontent
  have hblocks : Chained (writeSet 0x9992 (pad4 (receiverBytes rx_call rx_grid rig)) ++
      writeSet 0x9993 (pad4 (senderBytes reports))) := by
    apply hblock _ _ hreceiver
    rw [← List.append_nil (writeSet _ _)]
    exact hblock _ _ hsender _ chained_nil
  refine ⟨?_, announcedLength_writeMessage (by omega), ?_⟩
  · rw [length_writeMessage]
    exact hlimit
  · rw [drop_writeMessage, bodyBytes, List.append_assoc]
    cases include_templates with
    | false => exact hblocks
    | true =>
      rw [if_pos rfl, TEMPLATES, List.append_assoc]
      exact (hblocks.cons (by decide) (by decide)).cons (by decide) (by decide)

/-- The packet of an attempt can be built. -/
def CanBuild (cfg : Config) (s : State) (io : Attempt) (to_send : List Report) : Prop :=
  Sendable cfg.rx_call cfg.rx_grid cfg.rx_rig to_send s.seq cfg.session_id (include_tmpl s io)
    (truncate io.packet)

/-- What the body of the `try` statement does. -/
theorem try_upload_cases {s : State} {io : Attempt} {to_send : List Report}
    (hdedup : dedup_reports s.pending = .ok to_send) (hbuild : CanBuild cfg s io to_send) :
    ∃ pkt, build_packet cfg.rx_call cfg.rx_grid cfg.rx_rig to_send s.seq cfg.session_id
        (include_tmpl s io) (truncate io.packet) = .ok pkt ∧
      try_upload cfg s io = if io.network then .ok (to_send, pkt) else .error .OSError := by
  have hpkt := build_packet_eq_ok_iff.2 ⟨hbuild, rfl⟩
  refine ⟨_, hpkt, ?_⟩
  unfold try_upload upload
  simp only [hdedup, hpkt, bind, Except.bind]
  cases io.network with
  | false => rfl
  | true => rfl

/-- If no packet can be built the exception is not the one that is handled. -/
theorem try_upload_error {s : State} {io : Attempt}
    (h : ¬∃ to_send, dedup_reports s.pending = .ok to_send ∧ CanBuild cfg s io to_send) :
    ∃ e, e ≠ .OSError ∧ try_upload cfg s io = .error e := by
  -- neither the deduplication nor the packet raises the exception that is handled
  cases hdedup : dedup_reports s.pending with
  | error e =>
    refine ⟨e, fun he => noOSError_dedup_reports s.pending (he ▸ hdedup), ?_⟩
    simp only [try_upload, hdedup, bind, Except.bind]
  | ok to_send =>
    cases hbuild : build_packet cfg.rx_call cfg.rx_grid cfg.rx_rig to_send s.seq cfg.session_id
        (include_tmpl s io) (truncate io.packet) with
    | error e =>
      refine ⟨e, fun he => noOSError_build_packet _ _ _ _ _ _ _ _ (he ▸ hbuild), ?_⟩
      simp only [try_upload, upload, hdedup, hbuild, bind, Except.bind]
    | ok pkt => exact absurd ⟨to_send, hdedup, (build_packet_eq_ok_iff.1 hbuild).1⟩ h

/-- The state after a packet is sent, and the state after the network fails. -/
def State.afterAttempt (cfg : Config) (s : State) (io : Attempt) (count : ℕ) : State :=
  if io.network then
    { pending := [], seq := s.seq + count, packets_sent := s.packets_sent + 1,
      last_template_time := if include_tmpl s io then io.stamp else s.last_template_time,
      last_upload := io.after }
  else
    { s with last_template_time := if include_tmpl s io then io.stamp else s.last_template_time,
             last_upload := io.after - cfg.interval + 30 }

theorem seq_afterAttempt {s : State} {io : Attempt} (h : io.network) (count : ℕ) :
    (s.afterAttempt cfg io count).seq = s.seq + count := by
  rw [State.afterAttempt, if_pos h]

theorem send_step_of_not_due {s : State} {io : Attempt} (h : ¬Due cfg s io) :
    send_step cfg s io = .ok (s, []) := if_neg h

/-- An attempt whose packet can be built. -/
theorem send_step_of_canBuild {s : State} {io : Attempt} {to_send : List Report}
    (hdue : Due cfg s io) (hdedup : dedup_reports s.pending = .ok to_send)
    (hbuild : CanBuild cfg s io to_send) :
    ∃ pkt, build_packet cfg.rx_call cfg.rx_grid cfg.rx_rig to_send s.seq cfg.session_id
        (include_tmpl s io) (truncate io.packet) = .ok pkt ∧
      send_step cfg s io = .ok (s.afterAttempt cfg io to_send.length,
        if io.network then [pkt] else []) := by
  obtain ⟨pkt, hpkt, htry⟩ := try_upload_cases hdedup hbuild
  refine ⟨pkt, hpkt, ?_⟩
  rw [send_step, if_pos hdue, htry, State.afterAttempt]
  cases io.network with
  | false => rfl
  | true => rfl

/-- An attempt whose packet cannot be built leaves the loop. -/
theorem send_step_of_not_canBuild {s : State} {io : Attempt} (hdue : Due cfg s io)
    (h : ¬∃ to_send, dedup_reports s.pending = .ok to_send ∧ CanBuild cfg s io to_send) :
    ∃ e, e ≠ .OSError ∧ send_step cfg s io = .error e := by
  obtain ⟨e, he, htry⟩ := try_upload_error h
  refine ⟨e, he, ?_⟩
  rw [send_step, if_pos hdue, htry]
  cases e with
  | OSError => exact absurd rfl he
  | _ => rfl

/-! ## No exception leaves the loop -/

/-- A packet of the right size is built for some reports exactly if the texts and the numbers that
are reached can be packed and the whole packet fits its length field; and no exception leaves an
attempt exactly if that is so for the buffered reports without duplicates, when it is time to
send. -/
theorem build_packet_wellSized_iff (cfg : Config) :
    (∀ reports seq include_templates now,
      (∃ pkt, build_packet cfg.rx_call cfg.rx_grid cfg.rx_rig reports seq cfg.session_id
          include_templates now = .ok pkt ∧ WellSized pkt) ↔
        Sendable cfg.rx_call cfg.rx_grid cfg.rx_rig reports seq cfg.session_id include_templates
          now) ∧
    ∀ s io, (∀ e, send_step cfg s io ≠ .error e) ↔
      (Due cfg s io →
        ∃ to_send, dedup_reports s.pending = .ok to_send ∧ CanBuild cfg s io to_send) := by
  constructor
  · intro reports seq include_templates now
    constructor
    · rintro ⟨pkt, hpkt, -⟩
      exact (build_packet_eq_ok_iff.1 hpkt).1
    · intro h
      have hpkt := build_packet_eq_ok_iff.2 ⟨h, rfl⟩
      exact ⟨_, hpkt, wellSized_of_build_packet hpkt⟩
  · intro s io
    constructor
    · intro h hdue
      -- if the packet cannot be built, the attempt raises
      by_contra hbuild
      obtain ⟨e, -, he⟩ := send_step_of_not_canBuild hdue hbuild
      exact h e he
    · intro h e he
      by_cases hdue : Due cfg s io
      · obtain ⟨to_send, hdedup, hbuild⟩ := h hdue
        obtain ⟨pkt, -, hstep⟩ := send_step_of_canBuild hdue hdedup hbuild
        rw [hstep] at he
        cases he
      · -- an attempt that is not due does nothing
        rw [send_step_of_not_due hdue] at he
        cases he

/-- The reports that are buffered have a frequency that can be packed. -/
theorem word_of_accept {topic : Topic} {msg : Decoded} {r : Report}
    (h : accept classes topic msg = .ok (some r)) : r.call ≠ [] ∧ Word r.freq := by
  by_cases hcall : msg.sender classes topic = []
  · rw [accept, if_pos hcall] at h
    cases h
  · rw [accept, if_neg hcall] at h
    split at h
    · rename_i hband
      obtain ⟨f, hf, hwindow⟩ := bind_eq_ok_iff.1 hband
      obtain ⟨hfinite, hf⟩ := Number.toInt_eq_ok_iff.1 hf
      rw [pure_eq_ok_iff, List.any_eq_true] at hwindow
      obtain ⟨window, hmem, hwindow⟩ := hwindow
      rw [Bool.and_eq_true, decide_eq_true_eq, decide_eq_true_eq] at hwindow
      -- the windows are within what four bytes can hold
      have hbounds : ∀ window ∈ BAND_WINDOWS, 0 ≤ window.1 ∧ window.2 < 2 ^ 32 := by decide
      have hlimits := hbounds window hmem
      obtain rfl := Option.some.inj (Except.ok.inj h)
      refine ⟨hcall, hfinite, ?_⟩
      rw [hf]
      omega
    · cases h
    · cases h
    · cases h

/-- A station. -/
def station : Config :=
  ⟨"W1AW".toList, "DM78".toList, "rx888".toList, 300, 1, by decide, by decide⟩

/-- An attempt an hour later. -/
def later (network : Bool) : Attempt := ⟨3600, 3600, 3600, 3600, 3600, network⟩

/-- A message whose callsign is not ASCII is buffered, and leaves the loop at the next attempt. -/
theorem non_ascii_call_raises :
    ∃ s, exec (step station asciiClasses) (init 0) [.receive .js8
        ⟨some ['Ä', '1'], some (.int 14078000), .int (-10), .int 1700000000⟩] = some s ∧
      s.pending.length = 1 ∧
      ∃ e, e ≠ .OSError ∧ send_step station s (later true) = .error e := by
  refine ⟨_, rfl, rfl, send_step_of_not_canBuild ⟨by decide +kernel, nofun⟩ ?_⟩
  rintro ⟨to_send, hdedup, hbuild⟩
  obtain rfl := Except.ok.inj hdedup
  exact absurd hbuild.writable.1.call (by decide)

/-! ## Accounting -/

/-- A packet as a collector reads it that knows both templates. -/
def readPacket (pkt : List UInt8) : Option Message :=
  (readMessage [sender_template, receiver_template] pkt).map Prod.fst

/-- The reports in a packet. -/
def spotsOf (pkt : List UInt8) : List Spot := ((readPacket pkt).bind spots).getD []

/-- The sequence number of a packet. -/
def sequenceOf (pkt : List UInt8) : Option ℕ := (readPacket pkt).map Message.sequence

/-- An attempt ends, and each report that is left without the duplicates is in the packet that was
sent, or still buffered. -/
def Accounted (cfg : Config) (s : State) : Action → Prop
  | .receive .. => True
  | .attempt io => ∃ s' sent, send_step cfg s io = .ok (s', sent) ∧
      ∀ to_send, dedup_reports s.pending = .ok to_send →
        ∀ r ∈ to_send, r ∈ s'.pending ∨ ∃ pkt ∈ sent, r.spot ∈ spotsOf pkt

/-- The sequence number of each packet is the number of reports in all packets before it. -/
def Sequenced (packets : List (List UInt8)) : Prop :=
  ∀ front pkt back, packets = front ++ pkt :: back →
    sequenceOf pkt = some (front.map fun p => (spotsOf p).length).sum

/-- A packet that is due can be built, and if it is sent then none of its reports is left out. -/
def Complete (cfg : Config) (s : State) : Action → Prop
  | .receive .. => True
  | .attempt io => Due cfg s io → ∃ to_send, dedup_reports s.pending = .ok to_send ∧
      CanBuild cfg s io to_send ∧ (io.network → total to_send ≤ 65528)

/-- A packet holds the reports that fit its block. -/
theorem read_of_build_packet {rx_call rx_grid rig : List Char} {reports : List Report}
    {seq session_id : ℕ} {include_templates : Bool} {now : ℤ} {pkt : List UInt8}
    (h : build_packet rx_call rx_grid rig reports seq session_id include_templates now = .ok pkt) :
    spotsOf pkt = (fitting 0 reports).map Report.spot ∧ sequenceOf pkt = some seq := by
  obtain ⟨hsend, rfl⟩ := build_packet_eq_ok_iff.1 h
  have hknown : Known include_templates [sender_template, receiver_template] :=
    fun _ => ⟨rfl, rfl⟩
  obtain ⟨known', hread⟩ := readMessage_writeMessage_bodyBytes hsend hknown
  constructor
  · rw [spotsOf, readPacket, hread, Option.map_some, Option.bind_some,
      spots_packetSets _ _ _ hsend.writable]
    rfl
  · rw [sequenceOf, readPacket, hread]
    rfl

theorem mem_keep_best {best : List (Key × Report)} {key : Key} {r : Report} {p : Key × Report}
    (h : p ∈ keep_best best key r) : p ∈ best ∨ p.2 = r := by
  unfold keep_best at h
  split at h
  · rcases List.mem_append.1 h with h | h
    · exact Or.inl h
    · exact Or.inr (congrArg Prod.snd (List.mem_singleton.1 h))
  · split_ifs at h
    · obtain ⟨q, hq, rfl⟩ := List.mem_map.1 h
      split_ifs
      · exact Or.inr rfl
      · exact Or.inl hq
    · exact Or.inl h

/-- The reports that are kept are reports that were there. -/
theorem mem_of_mem_dedup_reports {reports to_send : List Report}
    (h : dedup_reports reports = .ok to_send) {r : Report} (hr : r ∈ to_send) : r ∈ reports := by
  have hloop : ∀ list best best', dedup_loop best list = .ok best' →
      ∀ p ∈ best', p ∈ best ∨ p.2 ∈ list := by
    intro list
    induction list with
    | nil =>
      intro best best' h p hp
      rw [dedup_loop, Except.ok.injEq] at h
      exact Or.inl (h ▸ hp)
    | cons q list ih =>
      intro best best' h p hp
      obtain ⟨key, -, h⟩ := bind_eq_ok_iff.1 h
      rcases ih _ _ h p hp with hp | hp
      · rcases mem_keep_best hp with hp | hp
        · exact Or.inl hp
        · exact Or.inr (hp ▸ List.mem_cons_self)
      · exact Or.inr (List.mem_cons_of_mem q hp)
  -- the loop starts without a report
  obtain ⟨best, hbest, h⟩ := bind_eq_ok_iff.1 h
  rw [pure_eq_ok_iff] at h
  rw [← h] at hr
  obtain ⟨p, hp, rfl⟩ := List.mem_map.1 hr
  exact (hloop reports [] best hbest p hp).resolve_left List.not_mem_nil

/-- An attempt that meets the condition loses no report. -/
theorem accounted_of_complete {s : State} {a : Action} (h : Complete cfg s a) :
    Accounted cfg s a := by
  cases a with
  | receive topic msg => trivial
  | attempt io =>
    by_cases hdue : Due cfg s io
    · obtain ⟨to_send, hdedup, hbuild, hfits⟩ := h hdue
      obtain ⟨pkt, hpkt, hstep⟩ := send_step_of_canBuild hdue hdedup hbuild
      refine ⟨_, _, hstep, ?_⟩
      intro to_send' hdedup' r hr
      obtain rfl : to_send = to_send' := Except.ok.inj (hdedup.symm.trans hdedup')
      rw [State.afterAttempt]
      cases hnetwork : io.network with
      | false =>
        -- nothing is sent, and the buffer is kept
        exact Or.inl (mem_of_mem_dedup_reports hdedup hr)
      | true =>
        -- the block limit cuts none of the reports off
        have hall : fitting 0 to_send = to_send :=
          (fitting_eq_self_iff (Nat.zero_le _)).2 ((Nat.zero_add _).trans_le (hfits hnetwork))
        refine Or.inr ⟨pkt, List.mem_singleton_self pkt, ?_⟩
        rw [(read_of_build_packet hpkt).1, hall]
        exact List.mem_map_of_mem hr
    · refine ⟨s, [], send_step_of_not_due hdue, ?_⟩
      intro to_send hdedup r hr
      exact Or.inl (mem_of_mem_dedup_reports hdedup hr)

variable (classes) in
/-- A turn that meets the condition sends nothing, or a packet with the sequence number of the
state, which is advanced by the reports in the packet. -/
theorem seq_of_complete {s : State} {a : Action} (h : Complete cfg s a) :
    (out cfg s a = [] ∧ ∀ s' ∈ step cfg classes s a, s'.seq = s.seq) ∨
      ∃ pkt, out cfg s a = [pkt] ∧ sequenceOf pkt = some s.seq ∧
        ∀ s' ∈ step cfg classes s a, s'.seq = s.seq + (spotsOf pkt).length := by
  cases a with
  | receive topic msg =>
    refine Or.inl ⟨rfl, ?_⟩
    intro s' hs'
    unfold step at hs'
    dsimp only at hs'
    split at hs'
    · rw [Option.mem_some_iff] at hs'
      rw [hs']
    · rw [Option.mem_some_iff] at hs'
      rw [← hs']
    · cases hs'
  | attempt io =>
    by_cases hdue : Due cfg s io
    · -- an attempt is due: the condition says that the packet is built
      obtain ⟨to_send, hdedup, hbuild, hfits⟩ := h hdue
      obtain ⟨pkt, hpkt, hstep⟩ := send_step_of_canBuild hdue hdedup hbuild
      have hnext : ∀ s' ∈ step cfg classes s (.attempt io),
          s' = s.afterAttempt cfg io to_send.length := by
        intro s' hs'
        rw [step, hstep] at hs'
        exact (Option.some.inj hs').symm
      rw [State.afterAttempt] at hnext
      cases hnetwork : io.network with
      | false =>
        rw [hnetwork] at hstep hnext
        -- the network fails: nothing is sent and the number stays
        refine Or.inl ⟨by rw [out, hstep]; rfl, ?_⟩
        intro s' hs'
        rw [hnext s' hs']
        rfl
      | true =>
        -- the limit of the block leaves none of the reports out
        have hall : fitting 0 to_send = to_send :=
          (fitting_eq_self_iff (Nat.zero_le _)).2 ((Nat.zero_add _).trans_le (hfits hnetwork))
        rw [hnetwork] at hstep hnext
        refine Or.inr ⟨pkt, by rw [out, hstep]; rfl, (read_of_build_packet hpkt).2, ?_⟩
        intro s' hs'
        rw [hnext s' hs', (read_of_build_packet hpkt).1, hall, List.length_map]
        rfl
    · refine Or.inl ⟨by rw [out, send_step_of_not_due hdue], ?_⟩
      intro s' hs'
      rw [step, send_step_of_not_due hdue] at hs'
      rw [Option.some.inj hs']

/-- The packets' sequence numbers, counted from a number on. -/
def SequencedFrom : ℕ → List (List UInt8) → Prop
  | _, [] => True
  | n, pkt :: packets =>
    sequenceOf pkt = some n ∧ SequencedFrom (n + (spotsOf pkt).length) packets

theorem SequencedFrom.sequenceOf {n : ℕ} {front back : List (List UInt8)} {pkt : List UInt8}
    (h : SequencedFrom n (front ++ pkt :: back)) :
    sequenceOf pkt = some (n + (front.map fun p => (spotsOf p).length).sum) := by
  induction front generalizing n with
  | nil => exact h.1
  | cons p front ih =>
    rw [ih h.2, List.map_cons, List.sum_cons, Nat.add_assoc]

/-- The sequence numbers of a run, by induction over its turns. -/
theorem sequencedFrom_trace {s : State} {as : List Action}
    (h : Along (step cfg classes) (Complete cfg) s as) :
    SequencedFrom s.seq (trace (step cfg classes) (out cfg) s as) := by
  induction as generalizing s with
  | nil => trivial
  | cons a as ih =>
    have hseq := seq_of_complete classes h.1
    cases hstep : step cfg classes s a with
    | none =>
      rw [trace, hstep]
      rcases hseq with ⟨hout, -⟩ | ⟨pkt, hout, hnumber, -⟩
      · rw [hout]
        trivial
      · rw [hout]
        exact ⟨hnumber, trivial⟩
    | some s' =>
      -- the numbers of the rest are counted from the number after this turn
      have hrest := ih (h.2 s' hstep)
      rw [trace_cons hstep]
      rcases hseq with ⟨hout, hnext⟩ | ⟨pkt, hout, hnumber, hnext⟩
      · rw [hnext s' hstep] at hrest
        rw [hout]
        exact hrest
      · rw [hnext s' hstep] at hrest
        rw [hout]
        exact ⟨hnumber, hrest⟩

/-- In every run whose due packets can be built, and whose sent packets leave no report out, each
report is after each attempt in the packet that was sent or still buffered, and each packet's
sequence number is the number of reports in all packets before it. -/
theorem accounted_and_sequenced {last_upload : ℚ} {as : List Action}
    (h : Along (step cfg classes) (Complete cfg) (init last_upload) as) :
    Along (step cfg classes) (Accounted cfg) (init last_upload) as ∧
      Sequenced (trace (step cfg classes) (out cfg) (init last_upload) as) := by
  refine ⟨h.mono fun s a => accounted_of_complete, ?_⟩
  intro front pkt back heq
  have hfrom := sequencedFrom_trace h
  rw [heq] at hfrom
  rw [hfrom.sequenceOf]
  exact congrArg some (Nat.zero_add _)

/-- An attempt that is due, and whose packet leaves no report out. -/
theorem along_attempt {s : State} {io : Attempt} {to_send : List Report} {as : List Action}
    (hdue : Due cfg s io) (hdedup : dedup_reports s.pending = .ok to_send)
    (hbuild : CanBuild cfg s io to_send) (hfits : total to_send ≤ 65528)
    (hrest : Along (step cfg classes) (Complete cfg) (s.afterAttempt cfg io to_send.length) as) :
    Along (step cfg classes) (Complete cfg) s (.attempt io :: as) := by
  refine ⟨fun _ => ⟨to_send, hdedup, hbuild, fun _ => hfits⟩, fun s' hs' => ?_⟩
  obtain ⟨pkt, -, hstep⟩ := send_step_of_canBuild hdue hdedup hbuild
  rw [step, hstep] at hs'
  obtain rfl := Option.some.inj hs'
  exact hrest

/-- A message with a callsign, and its report. -/
def heard (call : List Char) : Action :=
  .receive .js8 ⟨some call, some (.int 14078000), .int (-10), .int 1700000000⟩

def heardReport (call : List Char) : Report :=
  ⟨call, .int 14078000, .int (-10), some "JS8".toList, .int 1700000000⟩

theorem encodable_heardReport {call : List Char} (h : Ascii call) : (heardReport call).Encodable :=
  ⟨h, by show Word (.int 14078000); decide +kernel, trivial, by show Ascii "JS8".toList; decide,
    by show Word (.int 1700000000); decide +kernel⟩

/-- An attempt at a time. -/
def attemptAt (time : ℚ) (network : Bool) : Attempt := ⟨time, time, time, time, time, network⟩

/-- A message is received, the network fails at the first attempt, the message is sent with the next
one, and a second message with the third. -/
def twoPackets : List Action :=
  [heard "W1AW".toList, .attempt (attemptAt 3600 false), .attempt (attemptAt 3700 true),
    heard "K9LA".toList, .attempt (attemptAt 4000 true)]

theorem complete_twoPackets :
    Along (step station asciiClasses) (Complete station) (init 0) twoPackets := by
  have hascii : Ascii station.rx_call ∧ Ascii station.rx_grid ∧ Ascii station.rx_rig := by decide
  have hfirst := @encodable_heardReport "W1AW".toList (by decide)
  have hsecond := @encodable_heardReport "K9LA".toList (by decide)
  refine ⟨trivial, fun s₁ h₁ => ?_⟩
  obtain rfl := Option.some.inj h₁
  -- the first report stays in the buffer when the network fails
  refine along_attempt (by decide +kernel) rfl ⟨hascii, ⟨hfirst, fun _ => trivial⟩,
    by decide +kernel, by decide +kernel, by decide, by decide +kernel⟩ (by decide) ?_
  refine along_attempt (by decide +kernel) rfl ⟨hascii, ⟨hfirst, fun _ => trivial⟩,
    by decide +kernel, by decide +kernel, by decide, by decide +kernel⟩ (by decide) ?_
  -- the second report gets the number behind it
  refine ⟨trivial, fun s₄ h₄ => ?_⟩
  obtain rfl := Option.some.inj h₄
  exact along_attempt (by decide +kernel) rfl ⟨hascii, ⟨hsecond, fun _ => trivial⟩,
    by decide +kernel, by decide +kernel, by decide, by decide +kernel⟩ (by decide) trivial

/-- Two packets are sent, and account for the two reports. -/
theorem accounted_and_sequenced_twoPackets :
    (trace (step station asciiClasses) (out station) (init 0) twoPackets).length = 2 ∧
      Along (step station asciiClasses) (Accounted station) (init 0) twoPackets ∧
      Sequenced (trace (step station asciiClasses) (out station) (init 0) twoPackets) :=
  ⟨by decide +kernel, accounted_and_sequenced complete_twoPackets⟩

/-! ## A report that is lost -/

/-- Callsigns of 254 characters, all different. -/
def longCall (i : ℕ) : List Char :=
  Char.ofNat (65 + i / 16) :: Char.ofNat (65 + i % 16) :: List.replicate 252 'A'

/-- A message with such a callsign. -/
def longMessage (i : ℕ) : Action := heard (longCall i)

/-- The report of such a message. -/
def longReport (i : ℕ) : Report := heardReport (longCall i)

theorem longCall_inj {i j : ℕ} (hi : i < 256) (hj : j < 256) (h : longCall i = longCall j) :
    i = j := by
  have hchar : ∀ a < 16, ∀ b < 16, Char.ofNat (65 + a) = Char.ofNat (65 + b) → a = b := by decide
  rw [longCall, longCall, List.cons.injEq, List.cons.injEq] at h
  have hhigh := hchar (i / 16) (by omega) (j / 16) (by omega) h.1
  have hlow := hchar (i % 16) (by omega) (j % 16) (by omega) h.2.1
  omega

theorem ascii_longCall {i : ℕ} (h : i < 256) : Ascii (longCall i) := by
  have hchar : ∀ a < 16, (Char.ofNat (65 + a)).toNat < 128 := by decide
  rw [Ascii, longCall, List.forall_mem_cons, List.forall_mem_cons]
  refine ⟨hchar _ (by omega), hchar _ (by omega), ?_⟩
  intro c hc
  rw [List.eq_of_mem_replicate hc]
  decide

theorem encodable_longReport {i : ℕ} (h : i < 256) : (longReport i).Encodable :=
  encodable_heardReport (ascii_longCall h)

theorem length_longCall (i : ℕ) : (longCall i).length = 254 := by
  rw [longCall, List.length_cons, List.length_cons, List.length_replicate]

theorem size_longReport (i : ℕ) : (longReport i).size = 270 := by
  show str_length (longCall i) + 4 + 1 + 1 + str_length "JS8".toList + 1 + 4 = 270
  rw [str_length, length_longCall]
  rfl

/-- The messages are buffered in the order in which they are received. -/
theorem exec_longMessages (list : List ℕ) (s : State) :
    exec (step station asciiClasses) s (list.map longMessage) =
      some { s with pending := s.pending ++ list.map longReport } := by
  induction list generalizing s with
  | nil => rw [List.map_nil, List.map_nil, List.append_nil, exec_nil]
  | cons i list ih =>
    have hstep : step station asciiClasses s (longMessage i) =
        some { s with pending := s.pending ++ [longReport i] } := rfl
    rw [List.map_cons, exec_cons, hstep, Option.bind_some, ih, List.append_assoc]
    rfl

theorem dedup_longReports {n : ℕ} (hn : n ≤ 256) :
    dedup_reports ((List.range n).map longReport) = .ok ((List.range n).map longReport) := by
  have hkey : ∀ r ∈ (List.range n).map longReport, r.key = .ok (r.call, "JS8".toList, 14) := by
    intro r hr
    obtain ⟨i, -, rfl⟩ := List.mem_map.1 hr
    rfl
  apply dedup_reports_eq_self hkey
  rw [List.map_map]
  apply List.Nodup.map_on _ List.nodup_range
  intro i hi j hj heq
  rw [List.mem_range] at hi hj
  exact longCall_inj (by omega) (by omega) (congrArg Prod.fst heq)

theorem size_of_mem_longReports {n : ℕ} : ∀ r ∈ (List.range n).map longReport, r.size = 270 := by
  intro r hr
  obtain ⟨i, -, rfl⟩ := List.mem_map.1 hr
  exact size_longReport i

/-- The block has room for 242 of them. -/
theorem fitting_longReports :
    fitting 0 ((List.range 243).map longReport) = (List.range 242).map longReport := by
  rw [fitting_of_size (by decide) size_of_mem_longReports, ← List.map_take, List.take_range]
  rfl

theorem canBuild_longReports :
    CanBuild station ⟨(List.range 243).map longReport, 0, 0, 0, 0⟩ (later true)
      ((List.range 243).map longReport) := by
  have hencodable : ∀ r ∈ (List.range 243).map longReport, r.Encodable := by
    intro r hr
    obtain ⟨i, hi, rfl⟩ := List.mem_map.1 hr
    rw [List.mem_range] at hi
    exact encodable_longReport (by omega)
  have htotal : total ((List.range 242).map longReport) = 65340 := by
    rw [total_of_size size_of_mem_longReports, List.length_map, List.length_range]
  refine ⟨⟨by decide, by decide, by decide⟩, writable_of_forall_encodable hencodable 0,
    by decide +kernel, by decide, by decide, ?_⟩
  rw [fitting_longReports, packet_size, htotal]
  decide +kernel

/-- A report is told from the others by what a collector reads of it. -/
theorem spot_longReport_inj {i j : ℕ} (hi : i < 256) (hj : j < 256)
    (h : (longReport i).spot = (longReport j).spot) : i = j := by
  have hcall : (longCall i).take 254 = (longCall j).take 254 := congrArg Spot.call h
  rw [List.take_of_length_le (length_longCall i).le,
    List.take_of_length_le (length_longCall j).le] at hcall
  exact longCall_inj hi hj hcall

/-- Of 243 reports with callsigns of 254 characters the last one is left out of the packet, and the
buffer is cleared. The sequence number is advanced by 243, for a packet with 242 reports. -/
theorem last_report_lost :
    ∃ s, exec (step station asciiClasses) (init 0) ((List.range 243).map longMessage) = some s ∧
      ¬Accounted station s (.attempt (later true)) ∧
      ∃ s' pkt, send_step station s (later true) = .ok (s', [pkt]) ∧ s'.seq = 243 ∧
        (spotsOf pkt).length = 242 := by
  have hdedup := dedup_longReports (by decide : 243 ≤ 256)
  have hdue : Due station ⟨(List.range 243).map longReport, 0, 0, 0, 0⟩ (later true) :=
    ⟨by decide +kernel, by simp⟩
  obtain ⟨pkt, hpkt, hstep⟩ := send_step_of_canBuild hdue hdedup canBuild_longReports
  have hspots := (read_of_build_packet hpkt).1
  rw [fitting_longReports] at hspots
  refine ⟨_, exec_longMessages _ _, ?_, _, pkt, hstep, ?_, ?_⟩
  · rintro ⟨s', sent, hstep', haccounted⟩
    obtain ⟨rfl, rfl⟩ := Prod.mk.inj (Except.ok.inj (hstep.symm.trans hstep'))
    have hlast : longReport 242 ∈ (List.range 243).map longReport :=
      List.mem_map_of_mem (List.mem_range.2 (by decide))
    rcases haccounted _ hdedup _ hlast with hpending | ⟨p, hp, hspot⟩
    · -- the buffer has been cleared
      exact absurd hpending List.not_mem_nil
    · -- and the packet holds only the reports before it
      rw [List.mem_singleton.1 hp, hspots, List.map_map] at hspot
      obtain ⟨i, hi, heq⟩ := List.mem_map.1 hspot
      rw [List.mem_range] at hi
      have hi' := spot_longReport_inj (by omega) (by decide) heq
      omega
  · rw [seq_afterAttempt rfl, List.length_map, List.length_range]
  · rw [hspots, List.length_map, List.length_map, List.length_range]

end GranolaSdr.Uploader
