import Mathlib

/-!
# The Noise stream: framing and in-place encryption over a socket

`NoiseStream` carries the messages of a Noise session over a socket. What is written is
buffered, then encrypted in place under the session's write key and nonce, and sent as a
big-endian `u16` length followed by the ciphertext and its 16-byte tag; the reader takes the
frames apart the same way and decrypts them under its read key and nonce. Both directions are
resumable state machines (`ReadState`, `WriteState`) whose offsets survive a `Pending` socket.

The model:
* the cipher is any `Aead`: encryption keeps the length and adds a 16-byte tag, and decryption
  under the same key and nonce gives the plaintext back;
* the socket is a schedule of answers (`SocketAnswer`): each poll of it is `Pending`, moves at
  most a given number of bytes, or fails; the reader's side holds the bytes still to arrive;
* each 65535-byte buffer is the list of the bytes written to it so far, since the code never
  reads a position of it before it has written it;
* the `loop` of `poll_read` and of `poll_write_or_flush` is unrolled into one function per
  state, each handing over to the function of the state the loop goes on with: every pass
  through either loop leaves a state for a later one before it returns.

## Main results

* `pollWrite_pollFlush` — a message written and flushed puts one frame on the wire.
* `pollRead_frame` — a frame on the wire is read back, and the reader is ready for the next.
* `poll_read_zero_before_data` — an empty write and a flush put a tag-only frame on the wire,
  which the reader returns as `Ok(0)`, the end of the stream, while the writer goes on.
-/

set_option autoImplicit false

namespace Dijets.Noise

/-! ## The Noise session -/

/-- `MAX_SIZE_NOISE_MSG`: the largest Noise message. -/
def MAX_SIZE_NOISE_MSG : ℕ := 65535

/-- `AES_GCM_TAGLEN`: the length of an authentication tag. -/
def AES_GCM_TAGLEN : ℕ := 16

/-- `encrypted_len`. -/
def encryptedLen (plaintextLen : ℕ) : ℕ := plaintextLen + AES_GCM_TAGLEN

/-- `decrypted_len`. -/
def decryptedLen (ciphertextLen : ℕ) : ℕ := ciphertextLen - AES_GCM_TAGLEN

/-- The nonces of a session are `u64`s. -/
def U64_MAX : ℕ := 2 ^ 64 - 1

/-- `NoiseError`, of the errors the transport functions return. -/
inductive NoiseError where
  | decrypt
  | sessionClosed
  | payloadTooLarge
  | receivedMsgTooLarge
  | responseBufferTooSmall
  | nonceOverflow
deriving DecidableEq, Repr

/-- An authenticated cipher with detached tags, as the session uses `Aes256Gcm`: encryption in
place keeps the length and gives a tag of `AES_GCM_TAGLEN` bytes, decryption in place keeps the
length, and decrypting under the key and nonce of an encryption gives its plaintext back. -/
structure Aead (Key : Type) where
  encrypt : Key → ℕ → List UInt8 → List UInt8 × List UInt8
  decrypt : Key → ℕ → List UInt8 → List UInt8 → Option (List UInt8)
  length_encrypt : ∀ key nonce message, (encrypt key nonce message).1.length = message.length
  length_tag : ∀ key nonce message, (encrypt key nonce message).2.length = AES_GCM_TAGLEN
  decrypt_encrypt : ∀ key nonce message,
    decrypt key nonce (encrypt key nonce message).1 (encrypt key nonce message).2 = some message
  length_decrypt : ∀ key nonce ciphertext tag message,
    decrypt key nonce ciphertext tag = some message → message.length = ciphertext.length

/-- A cipher that leaves the message as it is and tags it with zeros: the laws of `Aead` hold of
some cipher. -/
def Aead.zeroTag : Aead Unit where
  encrypt _ _ message := (message, List.replicate AES_GCM_TAGLEN 0)
  decrypt _ _ ciphertext tag := if tag = List.replicate AES_GCM_TAGLEN 0 then some ciphertext else none
  length_encrypt _ _ _ := rfl
  length_tag _ _ _ := List.length_replicate
  decrypt_encrypt _ _ _ := if_pos rfl
  length_decrypt _ _ ciphertext tag message h := by
    by_cases htag : tag = List.replicate AES_GCM_TAGLEN 0
    · rw [if_pos htag] at h
      rw [← Option.some.inj h]
    · rw [if_neg htag] at h
      cases h

/-- `NoiseSession` after the handshake (the remote's static key left out). -/
structure NoiseSession (Key : Type) where
  valid : Bool
  writeKey : Key
  writeNonce : ℕ
  readKey : Key
  readNonce : ℕ

namespace NoiseSession

variable {Key : Type} (aead : Aead Key)

/-- `write_message_in_place`: the session after the call, the message as the call leaves it in
its buffer, and the authentication tag. The nonce's `checked_add` comes after the encryption,
so an overflow leaves the buffer encrypted. -/
def writeMessageInPlace (s : NoiseSession Key) (message : List UInt8) :
    NoiseSession Key × List UInt8 × Except NoiseError (List UInt8) :=
  if !s.valid then (s, message, .error .sessionClosed)
  else if message.length > MAX_SIZE_NOISE_MSG - AES_GCM_TAGLEN then
    (s, message, .error .payloadTooLarge)
  else
    let encrypted := aead.encrypt s.writeKey s.writeNonce message
    if s.writeNonce + 1 > U64_MAX then (s, encrypted.1, .error .nonceOverflow)
    else ({ s with writeNonce := s.writeNonce + 1 }, encrypted.1, .ok encrypted.2)

/-- `read_message_in_place`: the session after the call, the message as the call leaves it in
its buffer (the plaintext, then the tag), and the plaintext. -/
def readMessageInPlace (s : NoiseSession Key) (message : List UInt8) :
    NoiseSession Key × List UInt8 × Except NoiseError (List UInt8) :=
  if !s.valid then (s, message, .error .sessionClosed)
  else if message.length > MAX_SIZE_NOISE_MSG then
    ({ s with valid := false }, message, .error .receivedMsgTooLarge)
  else if message.length < AES_GCM_TAGLEN then
    ({ s with valid := false }, message, .error .responseBufferTooSmall)
  else
    let buffer := message.take (message.length - AES_GCM_TAGLEN)
    let authenticationTag := message.drop (message.length - AES_GCM_TAGLEN)
    match aead.decrypt s.readKey s.readNonce buffer authenticationTag with
    | none => ({ s with valid := false }, message, .error .decrypt)
    | some plaintext =>
      if s.readNonce + 1 > U64_MAX then
        (s, plaintext ++ authenticationTag, .error .nonceOverflow)
      else ({ s with readNonce := s.readNonce + 1 }, plaintext ++ authenticationTag, .ok plaintext)

end NoiseSession

/-! ## The socket -/

/-- `io::ErrorKind`, of the kinds the stream tells apart. -/
inductive ErrorKind where
  | unexpectedEof
  | writeZero
  | invalidData
  | other
deriving DecidableEq, Repr

/-- `io::Error`: one of a kind, or the stream's `InvalidData` error that reports a Noise error
under the name of what failed (`"DecryptionError"`, `"EncryptionError"`). -/
inductive IoError where
  | ofKind (kind : ErrorKind)
  | noise (what : String) (error : NoiseError)
deriving DecidableEq, Repr

/-- `io::Error::kind`. -/
def IoError.kind : IoError → ErrorKind
  | .ofKind kind => kind
  | .noise _ _ => .invalidData

/-- `Poll`. -/
inductive Poll (α : Type) where
  | ready (value : α)
  | pending
deriving DecidableEq, Repr

/-- What the socket answers to one poll: not yet; at most `n` bytes moved (a flush: done); or
an error. -/
inductive SocketAnswer where
  | pending
  | ready (n : ℕ)
  | error (kind : ErrorKind)
deriving DecidableEq, Repr

/-- The socket: its answers to reads and to writes and flushes, the bytes still to arrive, and
the bytes it has taken to send. -/
structure Socket where
  readAnswers : List SocketAnswer
  incoming : List UInt8
  writeAnswers : List SocketAnswer
  sent : List UInt8
deriving DecidableEq, Repr

/-- `buf[offset..offset + bytes.len()].copy_from_slice(bytes)`, on a buffer given by its
bytes. -/
def setRange {α : Type} (buf : List α) (offset : ℕ) (bytes : List α) : List α :=
  buf.take offset ++ bytes ++ buf.drop (offset + bytes.length)

/-- The loop of `poll_read_exact` into a slice of `len` bytes, over the socket's answers to
reads: each read fills the slice from `offset` on with what the answer lets through, and a read
of nothing is the end of the stream. -/
def readExactLoop (len : ℕ) : List SocketAnswer → Socket → List UInt8 → ℕ →
    Socket × List UInt8 × ℕ × Poll (Except IoError Unit)
  | [], sock, buf, offset => ({ sock with readAnswers := [] }, buf, offset, .pending)
  | .pending :: answers, sock, buf, offset =>
    ({ sock with readAnswers := answers }, buf, offset, .pending)
  | .error kind :: answers, sock, buf, offset =>
    ({ sock with readAnswers := answers }, buf, offset, .ready (.error (.ofKind kind)))
  | .ready n :: answers, sock, buf, offset =>
    let bytes := sock.incoming.take (min n (len - offset))
    let sock := { sock with readAnswers := answers, incoming := sock.incoming.drop bytes.length }
    if bytes.length = 0 then (sock, buf, offset, .ready (.error (.ofKind .unexpectedEof)))
    else if offset + bytes.length = len then
      (sock, setRange buf offset bytes, offset + bytes.length, .ready (.ok ()))
    else readExactLoop len answers sock (setRange buf offset bytes) (offset + bytes.length)

/-- `poll_read_exact`. -/
def pollReadExact (sock : Socket) (len : ℕ) (buf : List UInt8) (offset : ℕ) :
    Socket × List UInt8 × ℕ × Poll (Except IoError Unit) :=
  readExactLoop len sock.readAnswers sock buf offset

/-- The loop of `poll_write_all`, over the socket's answers to writes: each write takes what
the answer lets through of the buffer from `offset` on, and a write of nothing fails with
`WriteZero`. -/
def writeAllLoop (buf : List UInt8) : List SocketAnswer → Socket → ℕ →
    Socket × ℕ × Poll (Except IoError Unit)
  | [], sock, offset => ({ sock with writeAnswers := [] }, offset, .pending)
  | .pending :: answers, sock, offset => ({ sock with writeAnswers := answers }, offset, .pending)
  | .error kind :: answers, sock, offset =>
    ({ sock with writeAnswers := answers }, offset, .ready (.error (.ofKind kind)))
  | .ready n :: answers, sock, offset =>
    let bytes := (buf.drop offset).take n
    let sock := { sock with writeAnswers := answers, sent := sock.sent ++ bytes }
    if bytes.length = 0 then (sock, offset, .ready (.error (.ofKind .writeZero)))
    else if offset + bytes.length = buf.length then
      (sock, offset + bytes.length, .ready (.ok ()))
    else writeAllLoop buf answers sock (offset + bytes.length)

/-- `poll_write_all`. -/
def pollWriteAll (sock : Socket) (buf : List UInt8) (offset : ℕ) :
    Socket × ℕ × Poll (Except IoError Unit) :=
  writeAllLoop buf sock.writeAnswers sock offset

/-- The socket's `poll_flush`. -/
def Socket.pollFlush (sock : Socket) : Socket × Poll (Except IoError Unit) :=
  match sock.writeAnswers with
  | [] => (sock, .pending)
  | .pending :: answers => ({ sock with writeAnswers := answers }, .pending)
  | .ready _ :: answers => ({ sock with writeAnswers := answers }, .ready (.ok ()))
  | .error kind :: answers =>
    ({ sock with writeAnswers := answers }, .ready (.error (.ofKind kind)))

/-- `u16::to_be_bytes`. -/
def toBeBytes (n : ℕ) : List UInt8 := [(n / 256).toUInt8, (n % 256).toUInt8]

/-- `u16::from_be_bytes`. -/
def fromBeBytes (buf : List UInt8) : ℕ := (buf.getD 0 0).toNat * 256 + (buf.getD 1 0).toNat

/-! ## The stream -/

/-- `ReadState`. -/
inductive ReadState where
  | init
  | readFrameLen (buf : List UInt8) (offset : ℕ)
  | readFrame (frameLen : ℕ) (offset : ℕ)
  | copyDecryptedFrame (decryptedLen : ℕ) (offset : ℕ)
  | eof (result : Except Unit Unit)
  | decryptionError (error : NoiseError)

/-- `WriteState`. -/
inductive WriteState where
  | init
  | bufferData (offset : ℕ)
  | writeFrameLen (frameLen : ℕ) (buf : List UInt8) (offset : ℕ)
  | writeEncryptedFrame (frameLen : ℕ) (offset : ℕ)
  | flush
  | eof
  | encryptionError (error : NoiseError)

/-- `NoiseBuffers`, each buffer given by the bytes written to it. -/
structure NoiseBuffers where
  readBuffer : List UInt8
  writeBuffer : List UInt8

/-- `NoiseBuffers::new`: nothing written yet. -/
def NoiseBuffers.new : NoiseBuffers := ⟨[], []⟩

/-- `NoiseStream`. -/
structure NoiseStream (Key : Type) where
  socket : Socket
  session : NoiseSession Key
  buffers : NoiseBuffers
  readState : ReadState
  writeState : WriteState

/-- `MAX_WRITE_BUFFER_LENGTH`: the most plaintext a frame carries. -/
def MAX_WRITE_BUFFER_LENGTH : ℕ := decryptedLen MAX_SIZE_NOISE_MSG

namespace NoiseStream

variable {Key : Type} (aead : Aead Key)

/-- `NoiseStream::new`. -/
def new (socket : Socket) (session : NoiseSession Key) : NoiseStream Key :=
  ⟨socket, session, .new, .init, .init⟩

/-! ### Reading -/

/-- The state `Eof`'s answer: `Ok(0)` for an expected end, `UnexpectedEof` otherwise. -/
def eofResult : Except Unit Unit → Poll (Except IoError (List UInt8))
  | .ok () => .ready (.ok [])
  | .error () => .ready (.error (.ofKind .unexpectedEof))

/-- `CopyDecryptedFrame` of `poll_read` into a buffer of `bufLen` bytes: it copies what fits of
the decrypted frame from `offset` on, and returns the bytes copied. -/
def copyDecryptedFrame (st : NoiseStream Key) (decryptedLen offset bufLen : ℕ) :
    NoiseStream Key × Poll (Except IoError (List UInt8)) :=
  let bytesToCopy := min (decryptedLen - offset) bufLen
  ({ st with readState := if offset + bytesToCopy = decryptedLen then .init
               else .copyDecryptedFrame decryptedLen (offset + bytesToCopy) },
    .ready (.ok ((st.buffers.readBuffer.drop offset).take bytesToCopy)))

/-- `ReadFrame` of `poll_read`: it reads the frame into the read buffer, decrypts it in place
and goes on to copy it out. -/
def readFrame (st : NoiseStream Key) (frameLen offset bufLen : ℕ) :
    NoiseStream Key × Poll (Except IoError (List UInt8)) :=
  match pollReadExact st.socket frameLen st.buffers.readBuffer offset with
  | (socket, readBuffer, offset, .pending) =>
    ({ st with socket, buffers := { st.buffers with readBuffer },
               readState := .readFrame frameLen offset }, .pending)
  | (socket, readBuffer, offset, .ready (.error e)) =>
    ({ st with socket, buffers := { st.buffers with readBuffer },
               readState := if e.kind = .unexpectedEof then .eof (.error ())
                 else .readFrame frameLen offset }, .ready (.error e))
  | (socket, readBuffer, _, .ready (.ok ())) =>
    match st.session.readMessageInPlace aead (readBuffer.take frameLen) with
    | (session, message, .ok decrypted) =>
      copyDecryptedFrame
        { st with socket, session,
                  buffers := { st.buffers with readBuffer := setRange readBuffer 0 message },
                  readState := .copyDecryptedFrame decrypted.length 0 }
        decrypted.length 0 bufLen
    | (session, message, .error e) =>
      ({ st with socket, session,
                 buffers := { st.buffers with readBuffer := setRange readBuffer 0 message },
                 readState := .decryptionError e }, .ready (.error (.noise "DecryptionError" e)))

/-- `ReadFrameLen` of `poll_read`, with `poll_read_u16frame_len`: a frame length of zero is an
unexpected end, and an end of the stream before any byte of the length an expected one. -/
def readFrameLen (st : NoiseStream Key) (buf : List UInt8) (offset bufLen : ℕ) :
    NoiseStream Key × Poll (Except IoError (List UInt8)) :=
  match pollReadExact st.socket 2 buf offset with
  | (socket, buf, offset, .pending) => ({ st with socket, readState := .readFrameLen buf offset },
      .pending)
  | (socket, buf, _, .ready (.ok ())) =>
    if fromBeBytes buf = 0 then ({ st with socket, readState := .eof (.error ()) },
      eofResult (.error ()))
    else readFrame aead { st with socket, readState := .readFrame (fromBeBytes buf) 0 }
      (fromBeBytes buf) 0 bufLen
  | (socket, buf, offset, .ready (.error e)) =>
    if offset = 0 ∧ e.kind = .unexpectedEof then ({ st with socket, readState := .eof (.ok ()) },
      eofResult (.ok ()))
    else ({ st with socket, readState := if e.kind = .unexpectedEof then .eof (.error ())
                                          else .readFrameLen buf offset }, .ready (.error e))

/-- `NoiseStream::poll_read` into a buffer of `bufLen` bytes: the bytes it copies there. -/
def pollRead (st : NoiseStream Key) (bufLen : ℕ) :
    NoiseStream Key × Poll (Except IoError (List UInt8)) :=
  match st.readState with
  | .init => readFrameLen aead { st with readState := .readFrameLen [0, 0] 0 } [0, 0] 0 bufLen
  | .readFrameLen buf offset => readFrameLen aead st buf offset bufLen
  | .readFrame frameLen offset => readFrame aead st frameLen offset bufLen
  | .copyDecryptedFrame decryptedLen offset => copyDecryptedFrame st decryptedLen offset bufLen
  | .eof result => (st, eofResult result)
  | .decryptionError e => (st, .ready (.error (.noise "DecryptionError" e)))

/-! ### Writing -/

/-- The encryption of `BufferData`: the buffered `offset` bytes are encrypted in place, the tag
appended, and the frame's length goes out next. -/
def encryptFrame (st : NoiseStream Key) (offset : ℕ) : NoiseStream Key × Except IoError Unit :=
  match st.session.writeMessageInPlace aead (st.buffers.writeBuffer.take offset) with
  | (session, message, .ok authenticationTag) =>
    let writeBuffer :=
      setRange (setRange st.buffers.writeBuffer 0 message) offset authenticationTag
    ({ st with session, buffers := { st.buffers with writeBuffer },
               writeState := .writeFrameLen (encryptedLen offset)
                 (toBeBytes (encryptedLen offset)) 0 }, .ok ())
  | (session, message, .error e) =>
    let writeBuffer := setRange st.buffers.writeBuffer 0 message
    ({ st with session, buffers := { st.buffers with writeBuffer },
               writeState := .encryptionError e }, .error (.noise "EncryptionError" e))

/-- `BufferData` of `poll_write`: it buffers what fits of `buf`, encrypts once the buffer is
full, and returns how much it took. -/
def bufferData (st : NoiseStream Key) (offset : ℕ) (buf : List UInt8) :
    NoiseStream Key × Poll (Except IoError (Option ℕ)) :=
  let bytesToCopy := min (MAX_WRITE_BUFFER_LENGTH - offset) buf.length
  let writeBuffer := setRange st.buffers.writeBuffer offset (buf.take bytesToCopy)
  let st := { st with buffers := { st.buffers with writeBuffer },
                      writeState := .bufferData (offset + bytesToCopy) }
  if offset + bytesToCopy = MAX_WRITE_BUFFER_LENGTH then
    match encryptFrame aead st (offset + bytesToCopy) with
    | (st, .ok ()) => (st, .ready (.ok (some bytesToCopy)))
    | (st, .error e) => (st, .ready (.error e))
  else (st, .ready (.ok (some bytesToCopy)))

/-- `Init` of `poll_write_or_flush`: a write starts buffering, a flush is done. -/
def initStep (st : NoiseStream Key) : Option (List UInt8) →
    NoiseStream Key × Poll (Except IoError (Option ℕ))
  | none => (st, .ready (.ok none))
  | some buf => bufferData aead { st with writeState := .bufferData 0 } 0 buf

/-- `Flush` of `poll_write_or_flush`: the socket is flushed, and the loop goes on at `Init`. -/
def flushStep (st : NoiseStream Key) (buf : Option (List UInt8)) :
    NoiseStream Key × Poll (Except IoError (Option ℕ)) :=
  match st.socket.pollFlush with
  | (socket, .pending) => ({ st with socket }, .pending)
  | (socket, .ready (.error e)) => ({ st with socket }, .ready (.error e))
  | (socket, .ready (.ok ())) => initStep aead { st with socket, writeState := .init } buf

/-- `WriteEncryptedFrame` of `poll_write_or_flush`: the frame goes out, then the flush. -/
def writeEncryptedFrame (st : NoiseStream Key) (frameLen offset : ℕ)
    (buf : Option (List UInt8)) : NoiseStream Key × Poll (Except IoError (Option ℕ)) :=
  match pollWriteAll st.socket (st.buffers.writeBuffer.take frameLen) offset with
  | (socket, offset, .pending) =>
    ({ st with socket, writeState := .writeEncryptedFrame frameLen offset }, .pending)
  | (socket, offset, .ready (.error e)) =>
    ({ st with socket, writeState := if e.kind = .writeZero then .eof
                                     else .writeEncryptedFrame frameLen offset },
      .ready (.error e))
  | (socket, _, .ready (.ok ())) => flushStep aead { st with socket, writeState := .flush } buf

/-- `WriteFrameLen` of `poll_write_or_flush`: the length goes out, then the frame. -/
def writeFrameLen (st : NoiseStream Key) (frameLen : ℕ) (lenBuf : List UInt8) (offset : ℕ)
    (buf : Option (List UInt8)) : NoiseStream Key × Poll (Except IoError (Option ℕ)) :=
  match pollWriteAll st.socket lenBuf offset with
  | (socket, offset, .pending) =>
    ({ st with socket, writeState := .writeFrameLen frameLen lenBuf offset }, .pending)
  | (socket, offset, .ready (.error e)) =>
    ({ st with socket, writeState := if e.kind = .writeZero then .eof
                                     else .writeFrameLen frameLen lenBuf offset },
      .ready (.error e))
  | (socket, _, .ready (.ok ())) =>
    writeEncryptedFrame aead { st with socket, writeState := .writeEncryptedFrame frameLen 0 }
      frameLen 0 buf

/-- `BufferData` of a flush: what is buffered is encrypted and goes out. -/
def bufferDataFlush (st : NoiseStream Key) (offset : ℕ) :
    NoiseStream Key × Poll (Except IoError (Option ℕ)) :=
  match encryptFrame aead st offset with
  | (st, .ok ()) => writeFrameLen aead st (encryptedLen offset) (toBeBytes (encryptedLen offset)) 0
      none
  | (st, .error e) => (st, .ready (.error e))

/-- `NoiseStream::poll_write_or_flush`: a write (`some buf`) returns how much of `buf` it took,
a flush (`none`) returns `None` once everything buffered is out. -/
def pollWriteOrFlush (st : NoiseStream Key) (buf : Option (List UInt8)) :
    NoiseStream Key × Poll (Except IoError (Option ℕ)) :=
  match st.writeState, buf with
  | .init, buf => initStep aead st buf
  | .bufferData offset, some buf => bufferData aead st offset buf
  | .bufferData offset, none => bufferDataFlush aead st offset
  | .writeFrameLen frameLen lenBuf offset, buf => writeFrameLen aead st frameLen lenBuf offset buf
  | .writeEncryptedFrame frameLen offset, buf => writeEncryptedFrame aead st frameLen offset buf
  | .flush, buf => flushStep aead st buf
  | .eof, _ => (st, .ready (.error (.ofKind .writeZero)))
  | .encryptionError e, _ => (st, .ready (.error (.noise "EncryptionError" e)))

/-- `NoiseStream::poll_write`; `none` is its `unreachable!()`, a write answered as a flush. -/
def pollWrite (st : NoiseStream Key) (buf : List UInt8) :
    Option (NoiseStream Key × Poll (Except IoError ℕ)) :=
  match pollWriteOrFlush aead st (some buf) with
  | (st, .pending) => some (st, .pending)
  | (st, .ready (.error e)) => some (st, .ready (.error e))
  | (st, .ready (.ok (some n))) => some (st, .ready (.ok n))
  | (_, .ready (.ok none)) => none

/-- `NoiseStream::poll_flush`; `none` is its `unreachable!()`, a flush answered as a write. -/
def pollFlush (st : NoiseStream Key) : Option (NoiseStream Key × Poll (Except IoError Unit)) :=
  match pollWriteOrFlush aead st none with
  | (st, .pending) => some (st, .pending)
  | (st, .ready (.error e)) => some (st, .ready (.error e))
  | (st, .ready (.ok none)) => some (st, .ready (.ok ()))
  | (_, .ready (.ok (some _))) => none

/-! ## One frame through the socket

When the socket takes and delivers each piece in one answer, a message goes through in one frame:
a write buffers it, a flush encrypts it and puts its length and ciphertext on the wire, and the
reader reads the length, the ciphertext, decrypts it and copies it out. -/

/-- The bytes of one frame on the wire: the big-endian length, the ciphertext and the tag. -/
def frame (encrypted : List UInt8 × List UInt8) : List UInt8 :=
  toBeBytes (encryptedLen encrypted.1.length) ++ encrypted.1 ++ encrypted.2

end NoiseStream

section Lemmas

variable {α : Type}

@[simp]
theorem setRange_zero (buf bytes : List α) : setRange buf 0 bytes = bytes ++ buf.drop bytes.length := by
  simp [setRange]

theorem setRange_append_length (bytes rest tag : List α) :
    setRange (bytes ++ rest) bytes.length tag = bytes ++ tag ++ rest.drop tag.length := by
  simp [setRange, List.drop_append]

theorem fromBeBytes_toBeBytes {n : ℕ} (h : n < 65536) : fromBeBytes (toBeBytes n) = n := by
  simp only [fromBeBytes, toBeBytes, List.getD_cons_zero, List.getD_cons_succ, Nat.toUInt8_eq,
    UInt8.toNat_ofNat']
  rw [Nat.mod_eq_of_lt (by omega : n / 256 < 2 ^ 8), Nat.mod_mod_of_dvd _ (by decide : 2 ^ 8 ∣ 256)]
  omega

theorem length_toBeBytes (n : ℕ) : (toBeBytes n).length = 2 := rfl

/-- A read answered with enough bytes completes `poll_read_exact` at once. -/
theorem readExactLoop_ready {len n offset : ℕ} {answers : List SocketAnswer} {sock : Socket}
    {buf : List UInt8} (hlt : offset < len) (hn : len - offset ≤ n)
    (hin : len - offset ≤ sock.incoming.length) :
    readExactLoop len (.ready n :: answers) sock buf offset =
      ({ sock with readAnswers := answers, incoming := sock.incoming.drop (len - offset) },
        setRange buf offset (sock.incoming.take (len - offset)), len, .ready (.ok ())) := by
  have hmin : min n (len - offset) = len - offset := by omega
  have hlen : (sock.incoming.take (len - offset)).length = len - offset := by
    rw [List.length_take]
    omega
  simp only [readExactLoop, hmin, hlen]
  rw [if_neg (by omega), if_pos (by omega), Nat.add_sub_cancel' (Nat.le_of_lt hlt)]

/-- A write answered with room for the rest completes `poll_write_all` at once. -/
theorem writeAllLoop_ready {n offset : ℕ} {buf : List UInt8} {answers : List SocketAnswer}
    {sock : Socket} (hlt : offset < buf.length) (hn : buf.length - offset ≤ n) :
    writeAllLoop buf (.ready n :: answers) sock offset =
      ({ sock with writeAnswers := answers, sent := sock.sent ++ buf.drop offset }, buf.length,
        .ready (.ok ())) := by
  have htake : (buf.drop offset).take n = buf.drop offset := by
    rw [List.take_of_length_le]
    rw [List.length_drop]
    exact hn
  have hlen : (buf.drop offset).length = buf.length - offset := List.length_drop
  simp only [writeAllLoop, htake, hlen]
  rw [if_neg (by omega), if_pos (by omega), Nat.add_sub_cancel' (Nat.le_of_lt hlt)]

end Lemmas

namespace NoiseSession

variable {Key : Type} (aead : Aead Key) {s : NoiseSession Key}

theorem writeMessageInPlace_ok {message : List UInt8} (hvalid : s.valid = true)
    (hlen : message.length ≤ MAX_SIZE_NOISE_MSG - AES_GCM_TAGLEN)
    (hnonce : s.writeNonce + 1 ≤ U64_MAX) :
    s.writeMessageInPlace aead message =
      ({ s with writeNonce := s.writeNonce + 1 }, (aead.encrypt s.writeKey s.writeNonce message).1,
        .ok (aead.encrypt s.writeKey s.writeNonce message).2) := by
  simp only [writeMessageInPlace, hvalid, Bool.not_true]
  rw [if_neg Bool.false_ne_true, if_neg (by omega), if_neg (by omega)]

/-- A frame encrypted under the session's read key and nonce decrypts to its plaintext, which
the call leaves in the buffer before the tag. -/
theorem readMessageInPlace_encrypt {p : List UInt8} (hvalid : s.valid = true)
    (hlen : p.length ≤ MAX_SIZE_NOISE_MSG - AES_GCM_TAGLEN)
    (hnonce : s.readNonce + 1 ≤ U64_MAX) :
    s.readMessageInPlace aead
        ((aead.encrypt s.readKey s.readNonce p).1 ++ (aead.encrypt s.readKey s.readNonce p).2) =
      ({ s with readNonce := s.readNonce + 1 }, p ++ (aead.encrypt s.readKey s.readNonce p).2,
        .ok p) := by
  have hc := aead.length_encrypt s.readKey s.readNonce p
  have ht := aead.length_tag s.readKey s.readNonce p
  have hmsg : ((aead.encrypt s.readKey s.readNonce p).1 ++
      (aead.encrypt s.readKey s.readNonce p).2).length = p.length + AES_GCM_TAGLEN := by
    rw [List.length_append, hc, ht]
  -- the tag is the last `AES_GCM_TAGLEN` bytes, the ciphertext what comes before it
  have hcut : p.length + AES_GCM_TAGLEN - AES_GCM_TAGLEN =
      (aead.encrypt s.readKey s.readNonce p).1.length := by rw [hc]; omega
  simp only [readMessageInPlace, hvalid, Bool.not_true, hmsg, hcut, List.take_left',
    List.drop_left', aead.decrypt_encrypt]
  rw [if_neg Bool.false_ne_true, if_neg (by unfold MAX_SIZE_NOISE_MSG AES_GCM_TAGLEN at *; omega),
    if_neg (by omega), if_neg (by omega)]

end NoiseSession

namespace NoiseStream

variable {Key : Type} (aead : Aead Key) {st : NoiseStream Key}

/-! ### The writer -/

/-- From `Init`, a write of less than a frame's plaintext buffers it all and returns. -/
theorem pollWrite_init {p : List UInt8} (hinit : st.writeState = .init)
    (hp : p.length < MAX_WRITE_BUFFER_LENGTH) :
    pollWrite aead st p =
      some ({ st with
                buffers := { st.buffers with writeBuffer := setRange st.buffers.writeBuffer 0 p },
                writeState := .bufferData p.length }, .ready (.ok p.length)) := by
  have hcopy : min (MAX_WRITE_BUFFER_LENGTH - 0) p.length = p.length := by omega
  simp only [pollWrite, pollWriteOrFlush, hinit, initStep, bufferData, hcopy, List.take_length,
    Nat.zero_add]
  rw [if_neg (by omega)]

theorem flushStep_ready {c : ℕ} {rest : List SocketAnswer}
    (h : st.socket.writeAnswers = .ready c :: rest) :
    flushStep aead st none =
      ({ st with socket := { st.socket with writeAnswers := rest }, writeState := .init },
        .ready (.ok none)) := by
  simp only [flushStep, Socket.pollFlush, h, initStep]

theorem writeEncryptedFrame_ready {frameLen b : ℕ} {rest : List SocketAnswer}
    {buf : Option (List UInt8)} (h : st.socket.writeAnswers = .ready b :: rest)
    (hpos : 0 < frameLen) (hlen : frameLen ≤ st.buffers.writeBuffer.length) (hb : frameLen ≤ b) :
    writeEncryptedFrame aead st frameLen 0 buf =
      flushStep aead
        { st with
          socket := { st.socket with
                      writeAnswers := rest,
                      sent := st.socket.sent ++ st.buffers.writeBuffer.take frameLen },
          writeState := .flush } buf := by
  have htake : (st.buffers.writeBuffer.take frameLen).length = frameLen := by
    rw [List.length_take]
    omega
  simp only [writeEncryptedFrame, pollWriteAll, h]
  rw [writeAllLoop_ready (by omega) (by omega), List.drop_zero]

theorem writeFrameLen_ready {frameLen a : ℕ} {rest : List SocketAnswer}
    {buf : Option (List UInt8)} (h : st.socket.writeAnswers = .ready a :: rest) (ha : 2 ≤ a) :
    writeFrameLen aead st frameLen (toBeBytes frameLen) 0 buf =
      writeEncryptedFrame aead
        { st with
          socket := { st.socket with writeAnswers := rest, sent := st.socket.sent ++ toBeBytes frameLen },
          writeState := .writeEncryptedFrame frameLen 0 } frameLen 0 buf := by
  simp only [writeFrameLen, pollWriteAll, h]
  rw [writeAllLoop_ready (by rw [length_toBeBytes]; omega) (by rw [length_toBeBytes]; omega),
    List.drop_zero]

/-- The encryption of a buffer of at most a frame's plaintext, in a valid session whose nonce
does not overflow. -/
theorem encryptFrame_ok {offset : ℕ} (hvalid : st.session.valid = true)
    (hnonce : st.session.writeNonce + 1 ≤ U64_MAX) (hlen : offset ≤ MAX_WRITE_BUFFER_LENGTH) :
    encryptFrame aead st offset =
      ({ st with
         session := { st.session with writeNonce := st.session.writeNonce + 1 },
         buffers := { st.buffers with
                      writeBuffer := setRange
                        (setRange st.buffers.writeBuffer 0 (aead.encrypt st.session.writeKey
                          st.session.writeNonce (st.buffers.writeBuffer.take offset)).1) offset
                        (aead.encrypt st.session.writeKey st.session.writeNonce
                          (st.buffers.writeBuffer.take offset)).2 },
         writeState := .writeFrameLen (encryptedLen offset) (toBeBytes (encryptedLen offset)) 0 },
        .ok ()) := by
  have hmsg : (st.buffers.writeBuffer.take offset).length ≤ MAX_SIZE_NOISE_MSG - AES_GCM_TAGLEN :=
    calc (st.buffers.writeBuffer.take offset).length ≤ offset := List.length_take_le _ _
      _ ≤ MAX_SIZE_NOISE_MSG - AES_GCM_TAGLEN := hlen
  simp only [encryptFrame, NoiseSession.writeMessageInPlace_ok aead hvalid hmsg hnonce]

/-- The write buffer after encrypting `message` in place and appending its tag starts with the
frame's ciphertext and tag. -/
theorem take_setRange_encrypted (buf c tag : List UInt8) :
    (setRange (setRange buf 0 c) c.length tag).take (c.length + tag.length) = c ++ tag := by
  rw [setRange_zero, setRange_append_length, List.take_left' List.length_append]

/-- **A flush sends the buffered message as one frame**, when the socket takes the length, the
frame and the flush in one answer each. -/
theorem pollFlush_bufferData {p : List UInt8} {a b c : ℕ} {rest : List SocketAnswer}
    (hstate : st.writeState = .bufferData p.length)
    (hbuf : st.buffers.writeBuffer.take p.length = p) (hvalid : st.session.valid = true)
    (hnonce : st.session.writeNonce + 1 ≤ U64_MAX) (hp : p.length ≤ MAX_WRITE_BUFFER_LENGTH)
    (hanswers : st.socket.writeAnswers = .ready a :: .ready b :: .ready c :: rest)
    (ha : 2 ≤ a) (hb : encryptedLen p.length ≤ b) :
    ∃ st', pollFlush aead st = some (st', .ready (.ok ())) ∧ st'.writeState = .init ∧
      st'.session = { st.session with writeNonce := st.session.writeNonce + 1 } ∧
      st'.socket = { st.socket with
                     writeAnswers := rest,
                     sent := st.socket.sent ++
                       frame (aead.encrypt st.session.writeKey st.session.writeNonce p) } := by
  have hc := aead.length_encrypt st.session.writeKey st.session.writeNonce p
  have ht := aead.length_tag st.session.writeKey st.session.writeNonce p
  -- the frame the encryption leaves at the front of the write buffer
  have hframe := take_setRange_encrypted st.buffers.writeBuffer
    (aead.encrypt st.session.writeKey st.session.writeNonce p).1
    (aead.encrypt st.session.writeKey st.session.writeNonce p).2
  rw [hc, ht] at hframe
  have hroom : encryptedLen p.length ≤ (setRange (setRange st.buffers.writeBuffer 0
      (aead.encrypt st.session.writeKey st.session.writeNonce p).1) p.length
      (aead.encrypt st.session.writeKey st.session.writeNonce p).2).length := by
    have := congrArg List.length hframe
    rw [List.length_take, List.length_append, hc, ht] at this
    unfold encryptedLen
    omega
  simp only [pollFlush, pollWriteOrFlush, hstate, bufferDataFlush]
  rw [encryptFrame_ok aead hvalid hnonce hp, hbuf]
  dsimp only
  rw [writeFrameLen_ready aead (by rw [hanswers]) ha,
    writeEncryptedFrame_ready aead rfl (by unfold encryptedLen AES_GCM_TAGLEN; omega) hroom hb,
    flushStep_ready aead rfl]
  refine ⟨_, rfl, rfl, rfl, ?_⟩
  simp only [frame, hc, encryptedLen, hframe, List.append_assoc]

/-- **A message written and flushed goes out as one frame**: from `Init`, a write of less than a
frame's plaintext returns at once, and the flush after it puts its frame on the wire with the
session's write nonce and moves that nonce on. -/
theorem pollWrite_pollFlush {p : List UInt8} {a b c : ℕ} {rest : List SocketAnswer}
    (hinit : st.writeState = .init) (hvalid : st.session.valid = true)
    (hnonce : st.session.writeNonce + 1 ≤ U64_MAX) (hp : p.length < MAX_WRITE_BUFFER_LENGTH)
    (hanswers : st.socket.writeAnswers = .ready a :: .ready b :: .ready c :: rest)
    (ha : 2 ≤ a) (hb : encryptedLen p.length ≤ b) :
    ∃ st₁ st₂, pollWrite aead st p = some (st₁, .ready (.ok p.length)) ∧
      pollFlush aead st₁ = some (st₂, .ready (.ok ())) ∧ st₂.writeState = .init ∧
      st₂.session = { st.session with writeNonce := st.session.writeNonce + 1 } ∧
      st₂.socket = { st.socket with
                     writeAnswers := rest,
                     sent := st.socket.sent ++
                       frame (aead.encrypt st.session.writeKey st.session.writeNonce p) } := by
  have hbuf : (setRange st.buffers.writeBuffer 0 p).take p.length = p := by
    rw [setRange_zero, List.take_left' rfl]
  obtain ⟨st₂, hflush, hstate, hsession, hsocket⟩ :=
    @pollFlush_bufferData Key aead
      { st with
        buffers := { st.buffers with writeBuffer := setRange st.buffers.writeBuffer 0 p },
        writeState := .bufferData p.length }
      p a b c rest rfl hbuf hvalid hnonce (Nat.le_of_lt hp) hanswers ha hb
  exact ⟨_, st₂, pollWrite_init aead hinit hp, hflush, hstate, hsession, hsocket⟩

/-! ### The reader -/

/-- A frame length read in one answer hands over to reading the frame. -/
theorem readFrameLen_ready {a frameLen bufLen : ℕ} {rest : List SocketAnswer} {more : List UInt8}
    (h : st.socket.readAnswers = .ready a :: rest) (ha : 2 ≤ a)
    (hin : st.socket.incoming = toBeBytes frameLen ++ more) (hpos : 0 < frameLen)
    (hlt : frameLen < 65536) :
    readFrameLen aead st [0, 0] 0 bufLen =
      readFrame aead
        { st with
          socket := { st.socket with readAnswers := rest, incoming := more },
          readState := .readFrame frameLen 0 } frameLen 0 bufLen := by
  have hlen : 2 ≤ st.socket.incoming.length := by
    rw [hin, List.length_append, length_toBeBytes]
    omega
  have hbytes : st.socket.incoming.take 2 = toBeBytes frameLen := by
    rw [hin, List.take_left' (length_toBeBytes frameLen)]
  have hmore : st.socket.incoming.drop 2 = more := by
    rw [hin, List.drop_left' (length_toBeBytes frameLen)]
  have hdrop : ([0, 0] : List UInt8).drop 2 = [] := rfl
  simp only [readFrameLen, pollReadExact, h]
  rw [readExactLoop_ready (by omega) (by omega) (by omega)]
  simp only [Nat.sub_zero, hbytes, hmore, setRange_zero, length_toBeBytes, hdrop, List.append_nil,
    fromBeBytes_toBeBytes hlt]
  rw [if_neg (by omega)]

/-- A frame read in one answer, encrypted under the session's read key and nonce, is decrypted
in place and handed over to be copied out. -/
theorem readFrame_encrypted {b bufLen : ℕ} {rest : List SocketAnswer} {p more : List UInt8}
    (h : st.socket.readAnswers = .ready b :: rest)
    (hin : st.socket.incoming = (aead.encrypt st.session.readKey st.session.readNonce p).1 ++
      (aead.encrypt st.session.readKey st.session.readNonce p).2 ++ more)
    (hb : encryptedLen p.length ≤ b) (hvalid : st.session.valid = true)
    (hnonce : st.session.readNonce + 1 ≤ U64_MAX) (hp : p.length ≤ MAX_WRITE_BUFFER_LENGTH) :
    readFrame aead st (encryptedLen p.length) 0 bufLen =
      copyDecryptedFrame
        { st with
          socket := { st.socket with readAnswers := rest, incoming := more },
          session := { st.session with readNonce := st.session.readNonce + 1 },
          buffers := { st.buffers with
                       readBuffer := setRange
                         (setRange st.buffers.readBuffer 0 (st.socket.incoming.take
                           (encryptedLen p.length))) 0
                         (p ++ (aead.encrypt st.session.readKey st.session.readNonce p).2) },
          readState := .copyDecryptedFrame p.length 0 } p.length 0 bufLen := by
  have hc := aead.length_encrypt st.session.readKey st.session.readNonce p
  have ht := aead.length_tag st.session.readKey st.session.readNonce p
  have hframe : ((aead.encrypt st.session.readKey st.session.readNonce p).1 ++
      (aead.encrypt st.session.readKey st.session.readNonce p).2).length =
      encryptedLen p.length := by
    rw [List.length_append, hc, ht, encryptedLen]
  have hbytes : st.socket.incoming.take (encryptedLen p.length) =
      (aead.encrypt st.session.readKey st.session.readNonce p).1 ++
        (aead.encrypt st.session.readKey st.session.readNonce p).2 := by
    rw [hin, List.take_left' hframe]
  have hmore : st.socket.incoming.drop (encryptedLen p.length) = more := by
    rw [hin, List.drop_left' hframe]
  have hlen : encryptedLen p.length ≤ st.socket.incoming.length := by
    rw [hin, List.length_append, hframe]
    omega
  -- what the read leaves at the front of the read buffer is the whole frame
  have hmsg : (setRange st.buffers.readBuffer 0 (st.socket.incoming.take (encryptedLen p.length))).take
      (encryptedLen p.length) = (aead.encrypt st.session.readKey st.session.readNonce p).1 ++
        (aead.encrypt st.session.readKey st.session.readNonce p).2 := by
    rw [setRange_zero, hbytes, List.take_left' hframe]
  simp only [readFrame, pollReadExact, h]
  rw [readExactLoop_ready (by unfold encryptedLen AES_GCM_TAGLEN; omega) (by omega) (by omega)]
  simp only [Nat.sub_zero, hmore]
  rw [hmsg, NoiseSession.readMessageInPlace_encrypt aead hvalid hp hnonce]

/-- A decrypted frame that fits the caller's buffer is copied out whole, and the reader is
ready for the next frame. -/
theorem copyDecryptedFrame_whole {decryptedLen bufLen : ℕ} {q : List UInt8}
    (hbuf : st.buffers.readBuffer.take decryptedLen = q) (hlen : decryptedLen ≤ bufLen) :
    copyDecryptedFrame st decryptedLen 0 bufLen = ({ st with readState := .init }, .ready (.ok q)) := by
  have hcopy : min (decryptedLen - 0) bufLen = decryptedLen := by omega
  simp only [copyDecryptedFrame, hcopy, Nat.zero_add, List.drop_zero, hbuf, if_true]

/-- **A frame on the wire is read back**: from `Init`, when the socket delivers the length and the
frame in one answer each and the caller's buffer holds the message, `poll_read` returns the
plaintext, with the reader back at `Init` and its nonce one further. -/
theorem pollRead_frame {a b bufLen : ℕ} {rest : List SocketAnswer} {p more : List UInt8}
    (hinit : st.readState = .init) (hvalid : st.session.valid = true)
    (hnonce : st.session.readNonce + 1 ≤ U64_MAX)
    (hanswers : st.socket.readAnswers = .ready a :: .ready b :: rest) (ha : 2 ≤ a)
    (hb : encryptedLen p.length ≤ b)
    (hin : st.socket.incoming =
      frame (aead.encrypt st.session.readKey st.session.readNonce p) ++ more)
    (hp : p.length ≤ MAX_WRITE_BUFFER_LENGTH) (hfit : p.length ≤ bufLen) :
    ∃ st', pollRead aead st bufLen = (st', .ready (.ok p)) ∧ st'.readState = .init ∧
      st'.session = { st.session with readNonce := st.session.readNonce + 1 } ∧
      st'.socket = { st.socket with readAnswers := rest, incoming := more } := by
  have hc := aead.length_encrypt st.session.readKey st.session.readNonce p
  have hframeLen : encryptedLen (aead.encrypt st.session.readKey st.session.readNonce p).1.length =
      encryptedLen p.length := by rw [hc]
  have hlt : encryptedLen p.length < 65536 := by
    unfold encryptedLen AES_GCM_TAGLEN
    unfold MAX_WRITE_BUFFER_LENGTH decryptedLen MAX_SIZE_NOISE_MSG AES_GCM_TAGLEN at hp
    omega
  have hin' : st.socket.incoming = toBeBytes (encryptedLen p.length) ++
      ((aead.encrypt st.session.readKey st.session.readNonce p).1 ++
        (aead.encrypt st.session.readKey st.session.readNonce p).2 ++ more) := by
    rw [hin, frame, hframeLen, List.append_assoc _ _ (aead.encrypt _ _ p).2,
      List.append_assoc (toBeBytes _)]
  -- the hypotheses about the intermediate states are discharged once the rewrite has found them
  simp only [pollRead, hinit]
  rw [readFrameLen_ready aead (by exact hanswers) ha (by exact hin')
      (by unfold encryptedLen AES_GCM_TAGLEN; omega) hlt,
    readFrame_encrypted aead (by rfl) (by rfl) hb (by exact hvalid) (by exact hnonce) hp,
    copyDecryptedFrame_whole (q := p) (by dsimp only; rw [setRange_zero, List.append_assoc,
      List.take_left' rfl]) hfit]
  exact ⟨_, rfl, rfl, rfl, rfl⟩

/-! ### An empty write -/

/-- The frame of the empty message is its tag alone, behind the length `16`. -/
theorem frame_encrypt_nil (key : Key) (nonce : ℕ) :
    frame (aead.encrypt key nonce []) = [0, 16] ++ (aead.encrypt key nonce []).2 := by
  have hc : (aead.encrypt key nonce []).1 = [] :=
    List.eq_nil_of_length_eq_zero (aead.length_encrypt key nonce [])
  rw [frame, hc, List.length_nil, List.append_nil]
  rfl

/-- The writer's socket of the run below: it takes each length, frame and flush in one answer. -/
def emptyThenSevenSocket : Socket :=
  ⟨[], [], [.ready 2, .ready 16, .ready 0, .ready 2, .ready 17, .ready 0], []⟩

/-- A writer that writes the empty message and flushes, then writes `[7]` and flushes, puts a
tag-only frame and then the frame of `[7]` on the wire. A reader on the other end of that wire,
with the writer's key and nonce, returns `Ok(0)` to a one-byte read, the end of the stream, and
then the byte `7` that was still to come: the writer never closed its side. -/
theorem poll_read_zero_before_data (k k' : Key) :
    ∃ w₁ w₂ w₃ w₄ : NoiseStream Key,
      pollWrite aead (.new emptyThenSevenSocket ⟨true, k, 0, k', 0⟩) [] =
        some (w₁, .ready (.ok 0)) ∧
      pollFlush aead w₁ = some (w₂, .ready (.ok ())) ∧
      pollWrite aead w₂ [7] = some (w₃, .ready (.ok 1)) ∧
      pollFlush aead w₃ = some (w₄, .ready (.ok ())) ∧
      w₄.socket.sent = [0, 16] ++ (aead.encrypt k 0 []).2 ++ frame (aead.encrypt k 1 [7]) ∧
      ∃ r₁ r₂ : NoiseStream Key,
        pollRead aead (.new ⟨[.ready 2, .ready 16, .ready 2, .ready 17], w₄.socket.sent, [], []⟩
          ⟨true, k', 0, k, 0⟩) 1 = (r₁, .ready (.ok [])) ∧
        pollRead aead r₁ 1 = (r₂, .ready (.ok [7])) := by
  have hnonce₀ : 0 + 1 ≤ U64_MAX := by decide
  have hnonce₁ : 0 + 1 + 1 ≤ U64_MAX := by decide
  -- the writer: the empty message, then `[7]`, each in one frame
  obtain ⟨w₁, w₂, h₁, h₂, hstate₂, hsession₂, hsocket₂⟩ :=
    @pollWrite_pollFlush Key aead (.new emptyThenSevenSocket ⟨true, k, 0, k', 0⟩) [] 2 16 0
      [.ready 2, .ready 17, .ready 0] rfl rfl hnonce₀ (by decide) rfl (by decide) (by decide)
  obtain ⟨w₃, w₄, h₃, h₄, -, -, hsocket₄⟩ :=
    @pollWrite_pollFlush Key aead w₂ [7] 2 17 0 [] hstate₂ (by rw [hsession₂]; rfl)
      (by rw [hsession₂]; exact hnonce₁) (by decide) (by rw [hsocket₂]) (by decide) (by decide)
  have hsent : w₄.socket.sent = frame (aead.encrypt k 0 []) ++ frame (aead.encrypt k 1 [7]) := by
    rw [hsocket₄, hsocket₂, hsession₂]
    rfl
  refine ⟨w₁, w₂, w₃, w₄, h₁, h₂, h₃, h₄, by rw [hsent, frame_encrypt_nil], ?_⟩
  -- the reader: the tag-only frame, which it returns as `Ok(0)`, then the frame of `[7]`
  obtain ⟨r₁, e₁, hstate₁, hsession₁, hsocket₁⟩ :=
    @pollRead_frame Key aead
      (.new ⟨[.ready 2, .ready 16, .ready 2, .ready 17], w₄.socket.sent, [], []⟩ ⟨true, k', 0, k, 0⟩)
      2 16 1 [.ready 2, .ready 17] [] (frame (aead.encrypt k 1 [7])) rfl rfl hnonce₀ rfl
      (by decide) (by decide) hsent (by decide) (by decide)
  obtain ⟨r₂, e₂, -⟩ :=
    @pollRead_frame Key aead r₁ 2 17 1 [] [7] [] hstate₁ (by rw [hsession₁]; rfl)
      (by rw [hsession₁]; exact hnonce₁) (by rw [hsocket₁]) (by decide) (by decide)
      (by rw [hsocket₁, hsession₁, List.append_nil]; rfl) (by decide) (by decide)
  exact ⟨r₁, r₂, e₁, e₂⟩

/- Under the cipher that tags with zeros, the tag-only frame is the length `16` and sixteen zero
bytes, which the reader returns as `Ok(0)`. -/
example : (pollRead Aead.zeroTag (.new ⟨[.ready 2, .ready 16], [0, 16] ++ List.replicate 16 0,
    [], []⟩ ⟨true, (), 0, (), 0⟩) 1).2 = .ready (.ok []) := by decide

end NoiseStream

end Dijets.Noise
