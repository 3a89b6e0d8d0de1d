import Mathlib

/-!
# Message framing of the secure network stream

`NetworkStream` of the `secure/net` crate sends each message as its length, a little-endian
`u32`, followed by its bytes (`write`), and receives by buffering what the socket delivers until
a whole message is there (`read`, through `read_buffer`). The socket is modelled by what it does
for the stream: the successive results of its reads (a chunk of what the peer sent, no bytes once
the peer has closed, a time-out past the last), the number of bytes each of its writes takes, and
the bytes written so far.

The invariant of the reader is that its buffer followed by what the socket has still to deliver
is the framing of the messages not yet read (`Holds`). A read preserves it and returns the first
of them (`read_eq_ok_of_holds`), so a run of reads returns the messages in order
(`readMany_eq_of_holds`), whatever way the socket cuts the bytes into chunks. The writer puts
exactly the framing on the wire however its socket splits the writes (`writeMany_sent`).

`read_buffer` returns an empty vector both when no whole message is buffered and for a message
that is empty, which it has taken off the buffer: `read` reads the socket again then, so an empty
message is never returned, and a message behind it waits for more bytes from the socket
(`read_skips_empty_message`).
-/

set_option autoImplicit false

namespace Dijets.SecureNet

/-- `secure_net::Error`; every I/O error of the socket is `networkError`. -/
inductive Error where
  | alreadyShutdown
  | dataTooLarge (size : ℕ)
  | networkError
  | noActiveStream
  | overflowError (what : String)
  | remoteStreamClosed
deriving DecidableEq, Repr

/-- The socket as the stream sees it. `incoming` are the results of its successive reads into
the 1024-byte buffer: a chunk of the bytes the peer sent, or no bytes once the peer has closed;
a read past them times out. `accepts` are how many bytes its successive writes take; a write
past them times out. `sent` are the bytes written so far. -/
structure TcpStream where
  incoming : List (List UInt8)
  accepts : List ℕ
  sent : List UInt8
deriving DecidableEq, Repr

/-- `NetworkStream`: the socket and the bytes read but not yet returned. -/
structure NetworkStream where
  stream : TcpStream
  buffer : List UInt8
deriving DecidableEq, Repr

/-- `u32::to_le_bytes`. -/
def toLeBytes (n : UInt32) : List UInt8 :=
  [n.toUInt8, (n >>> 8).toUInt8, (n >>> 16).toUInt8, (n >>> 24).toUInt8]

/-- `u32::from_le_bytes`, as a `usize`. -/
def fromLeBytes (bytes : List UInt8) : ℕ := bytes.foldr (fun b acc => b.toNat + 256 * acc) 0

/-- `u32::max_value() as usize`. -/
def U32_MAX : ℕ := 2 ^ 32 - 1

namespace NetworkStream

/-- `NetworkStream::read_buffer`: the message at the front of the buffer and the buffer after
it, or an empty vector and the buffer as it was while no whole message is there. -/
def readBuffer (buffer : List UInt8) : List UInt8 × List UInt8 :=
  if buffer.length < 4 then ([], buffer)
  else
    let dataSize := fromLeBytes (buffer.take 4)
    let remainingData := buffer.drop 4
    if remainingData.length < dataSize then ([], buffer)
    else (remainingData.take dataSize, remainingData.drop dataSize)

/-- The loop of `read`: read the socket into the buffer until `read_buffer` returns a message.
Returns the result, the buffer and the socket's reads still to come. -/
def readLoop (buffer : List UInt8) :
    List (List UInt8) → Except Error (List UInt8) × List UInt8 × List (List UInt8)
  | [] => (.error .networkError, buffer, [])
  | chunk :: incoming =>
    if chunk.length = 0 then (.error .remoteStreamClosed, buffer, incoming)
    else
      let (result, buffer) := readBuffer (buffer ++ chunk)
      if !result.isEmpty then (.ok result, buffer, incoming) else readLoop buffer incoming

/-- `NetworkStream::read`. -/
def read (s : NetworkStream) : Except Error (List UInt8) × NetworkStream :=
  let (result, buffer) := readBuffer s.buffer
  if !result.isEmpty then (.ok result, { s with buffer })
  else
    let (result, buffer, incoming) := readLoop buffer s.stream.incoming
    (result, ⟨{ s.stream with incoming }, buffer⟩)

/-- The loop of `write_all`, `total` bytes of `data` written: returns the result, the bytes
on the wire and the socket's writes still to come. The loop's condition is checked before each
write; a write takes at most what is left. -/
def writeAllLoop (data : List UInt8) : ℕ → List UInt8 → List ℕ → Except Error Unit × List UInt8 × List ℕ
  | total, sent, [] =>
    if (data.drop total).isEmpty then (.ok (), sent, []) else (.error .networkError, sent, [])
  | total, sent, accept :: accepts =>
    let unwritten := data.drop total
    if unwritten.isEmpty then (.ok (), sent, accept :: accepts)
    else
      let written := min accept unwritten.length
      let sent := sent ++ unwritten.take written
      -- `total_written.checked_add(written as u64)`
      if total + written < 2 ^ 64 then writeAllLoop data (total + written) sent accepts
      else (.error (.overflowError "write_all::total_written"), sent, accepts)

/-- `NetworkStream::write_all`. -/
def writeAll (s : NetworkStream) (data : List UInt8) : Except Error Unit × NetworkStream :=
  let (result, sent, accepts) := writeAllLoop data 0 s.stream.sent s.stream.accepts
  (result, { s with stream := { s.stream with sent, accepts } })

/-- `NetworkStream::write`. -/
def write (s : NetworkStream) (data : List UInt8) : Except Error Unit × NetworkStream :=
  if U32_MAX ≤ data.length then (.error (.dataTooLarge data.length), s)
  else
    let dataLen := data.length.toUInt32
    match writeAll s (toLeBytes dataLen) with
    | (.error e, s) => (.error e, s)
    | (.ok (), s) => writeAll s data

/-- `n` reads one after the other. -/
def readMany : ℕ → NetworkStream → List (Except Error (List UInt8)) × NetworkStream
  | 0, s => ([], s)
  | n + 1, s =>
    let (result, s) := s.read
    let (results, s) := readMany n s
    (result :: results, s)

/-- Writes of `msgs` one after the other, up to the first that fails. -/
def writeMany : List (List UInt8) → NetworkStream → Except Error Unit × NetworkStream
  | [], s => (.ok (), s)
  | m :: msgs, s =>
    match s.write m with
    | (.ok (), s) => writeMany msgs s
    | (.error e, s) => (.error e, s)

/-- What `write` puts on the wire for a message. -/
def frame (m : List UInt8) : List UInt8 := toLeBytes m.length.toUInt32 ++ m

end NetworkStream

/-! ## The length prefix -/

@[simp] theorem length_toLeBytes (n : UInt32) : (toLeBytes n).length = 4 := rfl

theorem fromLeBytes_toLeBytes (n : UInt32) : fromLeBytes (toLeBytes n) = n.toNat := by
  have hlt := n.toNat_lt
  simp only [fromLeBytes, toLeBytes, List.foldr_cons, List.foldr_nil, UInt32.toNat_toUInt8,
    UInt32.toNat_shiftRight, Nat.shiftRight_eq_div_pow]
  simp only [UInt32.reduceToNat, Nat.reduceMod, Nat.reducePow]
  omega

theorem toNat_toUInt32 {n : ℕ} (h : n < 2 ^ 32) : n.toUInt32.toNat = n := by
  rw [Nat.toUInt32_eq, UInt32.toNat_ofNat', Nat.mod_eq_of_lt h]

namespace NetworkStream

@[simp] theorem length_frame (m : List UInt8) : (frame m).length = 4 + m.length := by
  rw [frame, List.length_append, length_toLeBytes]

/-! ## Reading -/

/-- **`read_buffer` on a buffer that begins a frame**: it returns the message once the whole
frame is buffered, and nothing before. -/
theorem readBuffer_eq_of_append {buffer more m rest : List UInt8} (hm : m.length < 2 ^ 32)
    (hb : buffer ++ more = frame m ++ rest) :
    readBuffer buffer =
      if buffer.length < 4 + m.length then ([], buffer) else (m, buffer.drop (4 + m.length)) := by
  unfold readBuffer
  by_cases h4 : buffer.length < 4
  · rw [if_pos h4, if_pos (by omega)]
  rw [if_neg h4]
  -- the first four bytes are the length prefix
  have hhead : buffer.take 4 = toLeBytes m.length.toUInt32 := by
    have h := congrArg (List.take 4) hb
    rwa [List.take_append_of_le_length (by omega), frame, List.append_assoc,
      List.take_left' (length_toLeBytes _)] at h
  have hsize : fromLeBytes (buffer.take 4) = m.length := by
    rw [hhead, fromLeBytes_toLeBytes, toNat_toUInt32 hm]
  have hrest : buffer.drop 4 ++ more = m ++ rest := by
    have h := congrArg (List.drop 4) hb
    rwa [List.drop_append_of_le_length (by omega), frame, List.append_assoc,
      List.drop_left' (length_toLeBytes _)] at h
  dsimp only
  rw [hsize, List.length_drop]
  by_cases hlt : buffer.length - 4 < m.length
  · rw [if_pos hlt, if_pos (by omega)]
  · rw [if_neg hlt, if_neg (by omega)]
    have htake : (buffer.drop 4).take m.length = m := by
      have h := congrArg (List.take m.length) hrest
      rwa [List.take_append_of_le_length (by rw [List.length_drop]; omega),
        List.take_left' rfl] at h
    rw [htake, List.drop_drop]

/-- A whole frame at the front of the buffer is taken off it. -/
theorem readBuffer_frame_append {m tail : List UInt8} (hm : m.length < 2 ^ 32) :
    readBuffer (frame m ++ tail) = (m, tail) := by
  rw [readBuffer_eq_of_append hm (List.append_nil _),
    if_neg (by rw [List.length_append, length_frame]; omega), List.drop_left' (length_frame m)]

/-- The bytes after a whole buffered frame are what is left of the buffer. -/
theorem drop_frame_append {buffer more m rest : List UInt8} (hb : buffer ++ more = frame m ++ rest)
    (hle : 4 + m.length ≤ buffer.length) : buffer.drop (4 + m.length) ++ more = rest := by
  have h := congrArg (List.drop (4 + m.length)) hb
  rwa [List.drop_append_of_le_length hle, List.drop_left' (length_frame m)] at h

/-- **The read loop returns the message whose frame the buffer begins**, once the socket has
delivered the rest of it, and leaves the bytes after it. -/
theorem readLoop_eq_ok {m rest : List UInt8} (hm : m.length < 2 ^ 32) (hne : m ≠ []) :
    ∀ {buffer : List UInt8} {incoming : List (List UInt8)}, (∀ c ∈ incoming, c ≠ []) →
      buffer ++ incoming.flatten = frame m ++ rest → buffer.length < 4 + m.length →
      ∃ buffer' incoming', readLoop buffer incoming = (.ok m, buffer', incoming') ∧
        (∀ c ∈ incoming', c ≠ []) ∧ buffer' ++ incoming'.flatten = rest
  | buffer, [], _, hb, hlt => by
    -- the socket has nothing more, so the whole frame was buffered already
    rw [List.flatten_nil, List.append_nil] at hb
    have := congrArg List.length hb
    rw [List.length_append, length_frame] at this
    omega
  | buffer, chunk :: incoming, hchunks, hb, hlt => by
    have hchunk : chunk.length ≠ 0 := by
      rw [Ne, List.length_eq_zero_iff]
      exact hchunks chunk List.mem_cons_self
    have hchunks' : ∀ c ∈ incoming, c ≠ [] := fun c hc => hchunks c (List.mem_cons_of_mem _ hc)
    have hb' : (buffer ++ chunk) ++ incoming.flatten = frame m ++ rest := by
      rw [List.append_assoc, ← List.flatten_cons, hb]
    unfold readLoop
    rw [if_neg hchunk]
    dsimp only
    rw [readBuffer_eq_of_append hm hb']
    by_cases hwhole : (buffer ++ chunk).length < 4 + m.length
    · -- still part of the frame: read the socket again
      rw [if_pos hwhole]
      exact readLoop_eq_ok hm hne hchunks' hb' hwhole
    · rw [if_neg hwhole]
      have hm' : (!m.isEmpty) = true := by simpa using hne
      rw [if_pos hm']
      exact ⟨_, _, rfl, hchunks', drop_frame_append hb' (Nat.le_of_not_lt hwhole)⟩

/-- The reader's invariant: what the socket is still to deliver comes in chunks of at least one
byte, and the buffer followed by it is the framing of `msgs`. -/
def Holds (msgs : List (List UInt8)) (s : NetworkStream) : Prop :=
  (∀ c ∈ s.stream.incoming, c ≠ []) ∧ s.buffer ++ s.stream.incoming.flatten = (msgs.map frame).flatten

/-- **No socket read once a message is buffered**: a non-empty message whose frame the buffer
begins is returned at once. -/
theorem read_of_buffered {s : NetworkStream} {m tail : List UInt8} (hm : m.length < 2 ^ 32)
    (hne : m ≠ []) (hbuf : s.buffer = frame m ++ tail) :
    s.read = (.ok m, { s with buffer := tail }) := by
  have hm' : (!m.isEmpty) = true := by simpa using hne
  unfold read
  rw [hbuf, readBuffer_frame_append hm]
  dsimp only
  rw [if_pos hm']

/-- **A read returns the first message not yet read**, keeping the invariant for the rest; it
does not touch the writing side. -/
theorem read_eq_ok_of_holds {s : NetworkStream} {m : List UInt8} {msgs : List (List UInt8)}
    (hm : m.length < 2 ^ 32) (hne : m ≠ []) (h : Holds (m :: msgs) s) :
    ∃ s', s.read = (.ok m, s') ∧ Holds msgs s' ∧ s'.stream.accepts = s.stream.accepts ∧
      s'.stream.sent = s.stream.sent := by
  obtain ⟨hchunks, hb⟩ := h
  rw [List.map_cons, List.flatten_cons] at hb
  unfold read
  rw [readBuffer_eq_of_append hm hb]
  by_cases hwhole : s.buffer.length < 4 + m.length
  · -- the frame is not all buffered: the loop reads the socket
    rw [if_pos hwhole]
    obtain ⟨buffer', incoming', hloop, hchunks', hrest⟩ := readLoop_eq_ok hm hne hchunks hb hwhole
    dsimp only
    rw [hloop]
    exact ⟨_, rfl, ⟨hchunks', hrest⟩, rfl, rfl⟩
  · rw [if_neg hwhole]
    have hm' : (!m.isEmpty) = true := by simpa using hne
    dsimp only
    rw [if_pos hm']
    exact ⟨_, rfl, ⟨hchunks, drop_frame_append hb (Nat.le_of_not_lt hwhole)⟩, rfl, rfl⟩

/-- **Reads return the non-empty messages in order**, however the socket cuts them into
chunks. -/
theorem readMany_eq_of_holds :
    ∀ {msgs : List (List UInt8)} {s : NetworkStream}, (∀ m ∈ msgs, m ≠ [] ∧ m.length < 2 ^ 32) →
      Holds msgs s → (readMany msgs.length s).1 = msgs.map .ok
  | [], _, _, _ => rfl
  | m :: msgs, s, hmsgs, h => by
    obtain ⟨hne, hm⟩ := hmsgs m List.mem_cons_self
    obtain ⟨s', hread, h', -, -⟩ := read_eq_ok_of_holds hm hne h
    rw [List.length_cons, readMany, hread]
    dsimp only
    rw [readMany_eq_of_holds (fun m' hm' => hmsgs m' (List.mem_cons_of_mem _ hm')) h', List.map_cons]

/-! ## Writing -/

/-- **`write_all` puts exactly the rest of the data on the wire** whenever it returns `Ok`,
however the socket splits the writes. -/
theorem writeAllLoop_sent {data : List UInt8} :
    ∀ {accepts : List ℕ} {total : ℕ} {sent sent' : List UInt8} {accepts' : List ℕ},
      writeAllLoop data total sent accepts = (.ok (), sent', accepts') →
        sent' = sent ++ data.drop total
  | [], total, sent, sent', accepts', h => by
    unfold writeAllLoop at h
    split_ifs at h with hdone
    · cases h
      rw [List.isEmpty_iff.mp hdone, List.append_nil]
    · cases h
  | accept :: accepts, total, sent, sent', accepts', h => by
    unfold writeAllLoop at h
    dsimp only at h
    split_ifs at h with hdone hfit
    · cases h
      rw [List.isEmpty_iff.mp hdone, List.append_nil]
    · -- the rest after the bytes this write took
      rw [writeAllLoop_sent h, List.append_assoc, ← List.drop_drop, List.take_append_drop]
    · cases h

/-- **`write_all` succeeds when every write of the socket takes a byte**, with as many writes as
bytes left. -/
theorem writeAllLoop_eq_ok {data : List UInt8} (hdata : data.length < 2 ^ 64) :
    ∀ {accepts : List ℕ} {total : ℕ} {sent : List UInt8}, (∀ a ∈ accepts, 0 < a) →
      data.length - total ≤ accepts.length →
      ∃ accepts', writeAllLoop data total sent accepts = (.ok (), sent ++ data.drop total, accepts')
  | [], total, sent, _, hcount => by
    -- no writes left, so nothing is left to write
    have hdone : data.drop total = [] := List.drop_eq_nil_of_le (by
      rw [List.length_nil] at hcount
      omega)
    unfold writeAllLoop
    rw [if_pos (List.isEmpty_iff.mpr hdone), hdone, List.append_nil]
    exact ⟨_, rfl⟩
  | accept :: accepts, total, sent, hpos, hcount => by
    unfold writeAllLoop
    dsimp only
    by_cases hdone : (data.drop total).isEmpty = true
    · rw [if_pos hdone, List.isEmpty_iff.mp hdone, List.append_nil]
      exact ⟨_, rfl⟩
    rw [if_neg hdone]
    have hleft : total < data.length := by
      by_contra hle
      exact hdone (List.isEmpty_iff.mpr (List.drop_eq_nil_of_le (by omega)))
    have hacc := hpos accept List.mem_cons_self
    have hlen : (data.drop total).length = data.length - total := List.length_drop
    -- this write takes at least one byte and at most what is left
    generalize hw : min accept (data.drop total).length = written
    have hwritten : 0 < written := by omega
    have hle : written ≤ data.length - total := by omega
    rw [if_pos (by omega)]
    obtain ⟨accepts', hloop⟩ := @writeAllLoop_eq_ok data hdata accepts (total + written)
      (sent ++ (data.drop total).take written) (fun a ha => hpos a (List.mem_cons_of_mem _ ha))
      (by rw [List.length_cons] at hcount; omega)
    rw [hloop, List.append_assoc, ← List.drop_drop, List.take_append_drop]
    exact ⟨accepts', rfl⟩

theorem writeAll_sent {s s' : NetworkStream} {data : List UInt8}
    (h : s.writeAll data = (.ok (), s')) :
    s'.stream.sent = s.stream.sent ++ data ∧ s'.stream.incoming = s.stream.incoming ∧
      s'.buffer = s.buffer := by
  unfold writeAll at h
  rcases hloop : writeAllLoop data 0 s.stream.sent s.stream.accepts with ⟨result, sent, accepts⟩
  rw [hloop] at h
  cases h
  have hsent := writeAllLoop_sent hloop
  rw [List.drop_zero] at hsent
  exact ⟨hsent, rfl, rfl⟩

/-- **A write that succeeds put the message's frame on the wire**, and the message fits the
length prefix. -/
theorem write_sent {s s' : NetworkStream} {data : List UInt8} (h : s.write data = (.ok (), s')) :
    data.length < U32_MAX ∧ s'.stream.sent = s.stream.sent ++ frame data ∧
      s'.stream.incoming = s.stream.incoming ∧ s'.buffer = s.buffer := by
  unfold write at h
  by_cases hlarge : U32_MAX ≤ data.length
  · rw [if_pos hlarge] at h
    cases h
  rw [if_neg hlarge] at h
  dsimp only at h
  rcases hheader : s.writeAll (toLeBytes data.length.toUInt32) with ⟨_ | ⟨⟩, s₁⟩
  · rw [hheader] at h
    cases h
  · rw [hheader] at h
    obtain ⟨hsent₁, hin₁, hbuf₁⟩ := writeAll_sent hheader
    obtain ⟨hsent, hin, hbuf⟩ := writeAll_sent h
    refine ⟨Nat.lt_of_not_le hlarge, ?_, hin.trans hin₁, hbuf.trans hbuf₁⟩
    rw [hsent, hsent₁, List.append_assoc, frame]

/-- **Writes that succeed put the framing of the messages on the wire.** -/
theorem writeMany_sent :
    ∀ {msgs : List (List UInt8)} {s s' : NetworkStream}, writeMany msgs s = (.ok (), s') →
      (∀ m ∈ msgs, m.length < U32_MAX) ∧
        s'.stream.sent = s.stream.sent ++ (msgs.map frame).flatten
  | [], s, s', h => by
    cases h
    exact ⟨fun _ h => absurd h List.not_mem_nil, (List.append_nil _).symm⟩
  | m :: msgs, s, s', h => by
    unfold writeMany at h
    rcases hwrite : s.write m with ⟨_ | ⟨⟩, s₁⟩
    · rw [hwrite] at h
      cases h
    · rw [hwrite] at h
      obtain ⟨hm, hsent₁, -, -⟩ := write_sent hwrite
      obtain ⟨hmsgs, hsent⟩ := writeMany_sent h
      refine ⟨fun m' hm' => ?_, ?_⟩
      · rcases List.mem_cons.mp hm' with rfl | hm'
        · exact hm
        · exact hmsgs m' hm'
      · rw [hsent, hsent₁, List.map_cons, List.flatten_cons, List.append_assoc]

/-! ## Both ends -/

/-- **The framing round trip of non-empty messages**: whatever the writer's socket did, a reader
whose socket delivers the bytes written, cut into chunks in any way, reads back the messages in
order. -/
theorem read_write_roundtrip {msgs : List (List UInt8)} {w w' r : NetworkStream}
    (hne : ∀ m ∈ msgs, m ≠ []) (hw : writeMany msgs w = (.ok (), w'))
    (hchunks : ∀ c ∈ r.stream.incoming, c ≠ []) (hbuffer : r.buffer = [])
    (hwire : r.stream.incoming.flatten = w'.stream.sent.drop w.stream.sent.length) :
    (readMany msgs.length r).1 = msgs.map .ok := by
  obtain ⟨hlen, hsent⟩ := writeMany_sent hw
  refine readMany_eq_of_holds (fun m hm => ⟨hne m hm, ?_⟩) ⟨hchunks, ?_⟩
  · have := hlen m hm
    unfold U32_MAX at this
    omega
  · rw [hbuffer, List.nil_append, hwire, hsent, List.drop_left]

/-- The messages `[7]` and `[8, 9]`, written through a socket that takes the second length in two
writes, read back from a socket that cuts the nine bytes after the third. -/
theorem read_write_roundtrip_two :
    (readMany 2 ⟨⟨[[1, 0, 0], [0, 7, 2, 0, 0, 0, 8, 9]], [], []⟩, []⟩).1 = [.ok [7], .ok [8, 9]] :=
  read_write_roundtrip (r := ⟨⟨[[1, 0, 0], [0, 7, 2, 0, 0, 0, 8, 9]], [], []⟩, []⟩) (by decide)
    (by decide : writeMany [[7], [8, 9]] ⟨⟨[], [4, 1, 3, 1, 2], []⟩, []⟩ =
      (.ok (), ⟨⟨[], [], [1, 0, 0, 0, 7, 2, 0, 0, 0, 8, 9]⟩, []⟩))
    (by decide) rfl (by decide)

/-- **An empty message is never read.** The writer frames `[]` and `[7]`; the reader's socket
delivers all nine bytes in one chunk. `read_buffer` takes the empty message off the buffer but
returns nothing, so `read` reads the socket again: if the peer sends nothing more the read times
out with `[7]` buffered, and if it sends a frame of `[8]` the read returns `[7]`. -/
theorem read_skips_empty_message :
    writeMany [[], [7]] ⟨⟨[], [4, 4, 1], []⟩, []⟩ =
        (.ok (), ⟨⟨[], [], [0, 0, 0, 0, 1, 0, 0, 0, 7]⟩, []⟩) ∧
      read ⟨⟨[[0, 0, 0, 0, 1, 0, 0, 0, 7]], [], []⟩, []⟩ =
        (.error .networkError, ⟨⟨[], [], []⟩, [1, 0, 0, 0, 7]⟩) ∧
      read ⟨⟨[[0, 0, 0, 0, 1, 0, 0, 0, 7], [1, 0, 0, 0, 8]], [], []⟩, []⟩ =
        (.ok [7], ⟨⟨[], [], []⟩, [1, 0, 0, 0, 8]⟩) := by
  refine ⟨?_, ?_, ?_⟩ <;> decide

end NetworkStream

end Dijets.SecureNet
