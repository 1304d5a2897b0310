import Mathlib.Algebra.Group.Nat.Defs
import Mathlib.Data.List.Basic
import Mathlib.Tactic.SplitIfs
import Mathlib.Data.Nat.Basic

/-!
# Multipart messages of the UCX queue

`socket_t` of `csrc/muhelper/ucxq.cpp` sends a message of several frames as one payload: a magic
number, the number of frames and the frames, each behind its length. `send` collects the frames of a
message over several calls and patches their number in place; `recv_multipart` takes a payload
apart. Every read of the decoder is checked in the model, so that a result means that all of them
were inside the payload.

A message goes through three facts: what one frame does to the open staging buffer, what the last
frame emits, and that the decoder finds the frames again. Nothing of the staging buffer survives a
message, so a sequence of messages starts each of them from the same state.

## Main results

* `readU32_eq_some_iff` — a number that is read stands in the payload
* `takeFrames_spec`, `takeFrames_encodeFrames` — the loop of the decoder
* `SocketT.recvMultipart_sendMessages`
-/

namespace StreamEP

/-! ### Numbers as bytes -/

/-- The bytes of `append_u32`, highest first. -/
def u32be (x : UInt32) : List UInt8 :=
  [UInt8.ofNat (x.toNat / 256 ^ 3), UInt8.ofNat (x.toNat / 256 ^ 2), UInt8.ofNat (x.toNat / 256),
    UInt8.ofNat x.toNat]

def storeU32 (v : List UInt8) (offset : ℕ) (value : UInt32) : List UInt8 :=
  v.take offset ++ u32be value ++ v.drop (offset + 4)

/-- `read_u32` at an offset of a payload, nothing if it would read behind the end. -/
def readU32 (payload : List UInt8) (offset : ℕ) : Option UInt32 :=
  match payload.drop offset with
  | b3 :: b2 :: b1 :: b0 :: _ =>
    some (UInt32.ofNat (b3.toNat * 256 ^ 3 + b2.toNat * 256 ^ 2 + b1.toNat * 256 + b0.toNat))
  | _ => none

/-- `message_t::assign` from an offset of a payload, nothing if it would read behind the end. -/
def readBytes (payload : List UInt8) (offset len : ℕ) : Option (List UInt8) :=
  if offset + len ≤ payload.length then some ((payload.drop offset).take len) else none

theorem length_u32be (x : UInt32) : (u32be x).length = 4 := rfl

theorem u32be_ofNat_bytes (b3 b2 b1 b0 : UInt8) :
    u32be (UInt32.ofNat (b3.toNat * 256 ^ 3 + b2.toNat * 256 ^ 2 + b1.toNat * 256 + b0.toNat)) =
      [b3, b2, b1, b0] := by
  have h3 := b3.toNat_lt
  have h2 := b2.toNat_lt
  have h1 := b1.toNat_lt
  have h0 := b0.toNat_lt
  simp only [u32be, List.cons.injEq, ← UInt8.toNat_inj, UInt8.toNat_ofNat', UInt32.toNat_ofNat',
    and_true]
  omega

theorem ofNat_bytes_u32be (x : UInt32) :
    UInt32.ofNat ((UInt8.ofNat (x.toNat / 256 ^ 3)).toNat * 256 ^ 3 +
      (UInt8.ofNat (x.toNat / 256 ^ 2)).toNat * 256 ^ 2 +
      (UInt8.ofNat (x.toNat / 256)).toNat * 256 + (UInt8.ofNat x.toNat).toNat) = x := by
  have hx := x.toNat_lt
  simp only [← UInt32.toNat_inj, UInt8.toNat_ofNat', UInt32.toNat_ofNat']
  omega

/-- **A number that is read** stands in the payload. -/
theorem readU32_eq_some_iff {payload : List UInt8} {p : ℕ} {x : UInt32} :
    readU32 payload p = some x ↔ ∃ rest, payload.drop p = u32be x ++ rest := by
  constructor
  · intro h
    rw [readU32] at h
    split at h
    · next b3 b2 b1 b0 rest hdrop =>
      obtain rfl := Option.some.inj h
      exact ⟨rest, by rw [hdrop, u32be_ofNat_bytes]; rfl⟩
    · cases h
  · rintro ⟨rest, hrest⟩
    rw [readU32, hrest]
    exact congrArg some (ofNat_bytes_u32be x)

theorem exists_readU32 {payload : List UInt8} {p : ℕ} (h : p + 4 ≤ payload.length) :
    ∃ x, readU32 payload p = some x := by
  have hlen : (payload.drop p).length = payload.length - p := List.length_drop
  rw [readU32]
  match hdrop : payload.drop p with
  | b3 :: b2 :: b1 :: b0 :: rest => exact ⟨_, rfl⟩
  | [] | [_] | [_, _] | [_, _, _] =>
    rw [hdrop] at hlen
    simp only [List.length_cons, List.length_nil] at hlen
    omega

/-! ### The decoder -/

def kMultipartMagic : UInt32 := 0x55435851

/-- The loop of `recv_multipart` from an offset, for `num_frames - i` more frames. -/
def takeFrames (payload : List UInt8) : ℕ → ℕ → Option (List (List UInt8))
  | 0, _ => some []
  | left + 1, p =>
    if p + 4 > payload.length then some []
    else do
      let len ← readU32 payload p
      if p + 4 + len.toNat > payload.length then some []
      else do
        let frame ← readBytes payload (p + 4) len.toNat
        let frames ← takeFrames payload left (p + 4 + len.toNat)
        return frame :: frames

/-- `recv_multipart` for a payload that was taken from the queue. -/
def recvMultipart (payload : List UInt8) : Option (List (List UInt8)) :=
  if payload.length < 4 * 2 then some [payload]
  else do
    let magic ← readU32 payload 0
    if magic ≠ kMultipartMagic then some [payload]
    else do
      let numFrames ← readU32 payload 4
      takeFrames payload numFrames.toNat (4 * 2)

def encodeFrame (frame : List UInt8) : List UInt8 := u32be (UInt32.ofNat frame.length) ++ frame

def encodeFrames (frames : List (List UInt8)) : List UInt8 := frames.flatMap encodeFrame

/-- A payload: the magic number, the number of frames and the frames. -/
def encodeMessage (frames : List (List UInt8)) : List UInt8 :=
  u32be kMultipartMagic ++ u32be (UInt32.ofNat frames.length) ++ encodeFrames frames

section Decoder

variable {payload : List UInt8} {p : ℕ}

theorem encodeFrames_cons (frame : List UInt8) (frames : List (List UInt8)) :
    encodeFrames (frame :: frames) = encodeFrame frame ++ encodeFrames frames := rfl

theorem encodeFrames_concat (frames : List (List UInt8)) (frame : List UInt8) :
    encodeFrames (frames ++ [frame]) = encodeFrames frames ++ encodeFrame frame := by
  rw [encodeFrames, List.flatMap_append, List.flatMap_singleton]
  rfl

theorem toNat_ofNat_length {frame : List UInt8} (h : frame.length < 2 ^ 32) :
    (UInt32.ofNat frame.length).toNat = frame.length := by
  rw [UInt32.toNat_ofNat', Nat.mod_eq_of_lt h]

/-- **The loop of the decoder** returns the frames that stand at the offset one after another. -/
theorem takeFrames_spec (left : ℕ) (hp : p ≤ payload.length) :
    ∃ frames rest, takeFrames payload left p = some frames ∧ frames.length ≤ left ∧
      (∀ frame ∈ frames, frame.length < 2 ^ 32) ∧
      payload.drop p = encodeFrames frames ++ rest := by
  induction left generalizing p with
  | zero => exact ⟨[], payload.drop p, rfl, Nat.le_refl 0, by simp, rfl⟩
  | succ left ih =>
    have hnone : ∃ frames rest, some ([] : List (List UInt8)) = some frames ∧
        frames.length ≤ left + 1 ∧ (∀ frame ∈ frames, frame.length < 2 ^ 32) ∧
        payload.drop p = encodeFrames frames ++ rest :=
      ⟨[], payload.drop p, rfl, Nat.zero_le _, by simp, rfl⟩
    rw [takeFrames]
    split_ifs with hlength
    · exact hnone
    · obtain ⟨len, hlen⟩ := exists_readU32 (Nat.not_lt.mp hlength)
      rw [hlen, Option.bind_eq_bind, Option.bind_some]
      split_ifs with hend
      · exact hnone
      · have hfits : p + 4 + len.toNat ≤ payload.length := Nat.not_lt.mp hend
        obtain ⟨frames, rest, htake, hle, hsmall, hdrop⟩ := ih hfits
        obtain ⟨tail, htail⟩ := readU32_eq_some_iff.mp hlen
        have htail' : payload.drop (p + 4) = tail := by
          rw [← List.drop_drop, htail]
          rfl
        have hframe : (payload.drop (p + 4)).take len.toNat ++ payload.drop (p + 4 + len.toNat) =
            tail := by
          rw [htail', ← List.drop_drop, htail', List.take_append_drop]
        have hsize : ((payload.drop (p + 4)).take len.toNat).length = len.toNat := by
          rw [List.length_take, List.length_drop]
          omega
        refine ⟨(payload.drop (p + 4)).take len.toNat :: frames, rest, ?_,
          Nat.succ_le_succ hle, List.forall_mem_cons.mpr ⟨?_, hsmall⟩, ?_⟩
        · rw [readBytes, if_pos hfits, htake]
          rfl
        · rw [hsize]
          exact len.toNat_lt
        · rw [encodeFrames_cons, encodeFrame, hsize, UInt32.ofNat_toNat, htail, List.append_assoc,
            List.append_assoc, ← hdrop, hframe]

theorem takeFrames_encodeFrames {frames : List (List UInt8)} {rest : List UInt8}
    (hsmall : ∀ frame ∈ frames, frame.length < 2 ^ 32)
    (hdrop : payload.drop p = encodeFrames frames ++ rest) (hp : p ≤ payload.length) :
    takeFrames payload frames.length p = some frames := by
  induction frames generalizing p with
  | nil => rfl
  | cons frame frames ih =>
    obtain ⟨hframe, hsmall⟩ := List.forall_mem_cons.mp hsmall
    rw [encodeFrames_cons, encodeFrame, List.append_assoc, List.append_assoc] at hdrop
    have hlength := congrArg List.length hdrop
    simp only [List.length_drop, List.length_append, length_u32be] at hlength
    have hlen : readU32 payload p = some (UInt32.ofNat frame.length) :=
      readU32_eq_some_iff.mpr ⟨_, hdrop⟩
    have htail : payload.drop (p + 4) = frame ++ (encodeFrames frames ++ rest) := by
      rw [← List.drop_drop, hdrop]
      rfl
    have hread : readBytes payload (p + 4) frame.length = some frame := by
      rw [readBytes, if_pos (by omega), htail, List.take_left]
    have hnext : payload.drop (p + 4 + frame.length) = encodeFrames frames ++ rest := by
      rw [← List.drop_drop, htail, List.drop_left]
    rw [List.length_cons, takeFrames, if_neg (by omega), hlen, Option.bind_eq_bind,
      Option.bind_some, toNat_ofNat_length hframe, if_neg (by omega), hread, Option.bind_eq_bind,
      Option.bind_some, ih hsmall hnext (by omega)]
    rfl

theorem recvMultipart_encodeMessage {frames : List (List UInt8)} (hcount : frames.length < 2 ^ 32)
    (hsmall : ∀ frame ∈ frames, frame.length < 2 ^ 32) :
    recvMultipart (encodeMessage frames) = some frames := by
  have hlength : (encodeMessage frames).length = 8 + (encodeFrames frames).length := by
    rw [encodeMessage, List.length_append, List.length_append, length_u32be, length_u32be]
  have hmagic : readU32 (encodeMessage frames) 0 = some kMultipartMagic :=
    readU32_eq_some_iff.mpr ⟨_, by rw [encodeMessage, List.append_assoc]; rfl⟩
  have hnum : readU32 (encodeMessage frames) 4 = some (UInt32.ofNat frames.length) :=
    readU32_eq_some_iff.mpr ⟨encodeFrames frames, rfl⟩
  have hframes : (encodeMessage frames).drop (4 * 2) = encodeFrames frames ++ [] :=
    (List.append_nil _).symm
  rw [recvMultipart, if_neg (by omega), hmagic, Option.bind_eq_bind, Option.bind_some,
    if_neg (not_not.mpr rfl), hnum, Option.bind_some, UInt32.toNat_ofNat', Nat.mod_eq_of_lt hcount]
  exact takeFrames_encodeFrames hsmall hframes (by omega)

/-- What `recv_multipart` may make of a payload: one frame, or frames that stand behind each other
in it. -/
theorem recvMultipart_spec (payload : List UInt8) :
    ∃ frames, recvMultipart payload = some frames ∧
      (frames = [payload] ∨
        ∃ header rest, header.length = 8 ∧ (∀ frame ∈ frames, frame.length < 2 ^ 32) ∧
          payload = header ++ encodeFrames frames ++ rest) := by
  rw [recvMultipart]
  split_ifs with hshort
  · exact ⟨[payload], rfl, .inl rfl⟩
  · obtain ⟨magic, hmagic⟩ := @exists_readU32 payload 0 (by omega)
    rw [hmagic, Option.bind_eq_bind, Option.bind_some]
    split_ifs with hother
    · exact ⟨[payload], rfl, .inl rfl⟩
    · obtain ⟨numFrames, hnum⟩ := @exists_readU32 payload 4 (by omega)
      obtain ⟨frames, rest, htake, -, hsmall, hdrop⟩ :=
        @takeFrames_spec payload (4 * 2) numFrames.toNat (by omega)
      refine ⟨frames, by rw [hnum, Option.bind_some, htake], .inr ⟨payload.take (4 * 2), rest, ?_,
        hsmall, ?_⟩⟩
      · rw [List.length_take]
        omega
      · rw [List.append_assoc, ← hdrop, List.take_append_drop]

end Decoder

/-! ### The encoder -/

inductive SocketType
  | push
  | pull
  deriving DecidableEq

/-- `send_flags::type` -/
inductive SendFlags
  | none
  | sndmore
  deriving DecidableEq

/-- `socket_t`, as far as it sends. -/
structure SocketT where
  type : SocketType
  /-- The payloads that `sender_` got, if there is a sender. -/
  sender : Option (List (List UInt8))
  multipartStaging : List UInt8
  multipartOpen : Bool
  multipartFrameCount : UInt32

/-- A message: at least two frames, with numbers that fit 32 bits. -/
structure MultipartMessage where
  frames : List (List UInt8)
  two_le : 2 ≤ frames.length
  count_lt : frames.length < 2 ^ 32
  frame_lt : ∀ frame ∈ frames, frame.length < 2 ^ 32

namespace SocketT

/-- `append_frame` of `send` -/
def appendFrame (s : SocketT) (frame : List UInt8) : SocketT :=
  let staging := s.multipartStaging ++ u32be (UInt32.ofNat frame.length) ++ frame
  let count := s.multipartFrameCount + 1
  { s with multipartStaging := storeU32 staging 4 count, multipartFrameCount := count }

/-- What `send` does before the first frame of a message. -/
def openMultipart (s : SocketT) : SocketT :=
  { s with
    multipartStaging := u32be kMultipartMagic ++ u32be 0
    multipartFrameCount := 0
    multipartOpen := true }

def send (s : SocketT) (buf : List UInt8) (flags : SendFlags) : Except String SocketT :=
  match s.type, s.sender with
  | .push, some sent =>
    match flags with
    | .sndmore =>
      if s.multipartOpen then .ok (s.appendFrame buf) else .ok (s.openMultipart.appendFrame buf)
    | .none =>
      if s.multipartOpen then
        let s := s.appendFrame buf
        .ok { s with
          sender := some (sent ++ [s.multipartStaging])
          multipartStaging := []
          multipartOpen := false
          multipartFrameCount := 0 }
      else .ok { s with sender := some (sent ++ [buf]) }
  | _, _ => .error "either wrong socket type or sender not initialized"

/-- The calls for a message: `sndmore` on all frames but the last. -/
def sendMessage (s : SocketT) : List (List UInt8) → Except String SocketT
  | [] => .ok s
  | [frame] => s.send frame .none
  | frame :: frames => do
    let s ← s.send frame .sndmore
    sendMessage s frames

/-- The calls for a sequence of messages. -/
def sendMessages (s : SocketT) : List (List (List UInt8)) → Except String SocketT
  | [] => .ok s
  | frames :: messages => do
    let s ← s.sendMessage frames
    sendMessages s messages

/-- A socket that can send and is between two messages. -/
structure Closed (sent : List (List UInt8)) (s : SocketT) : Prop where
  type : s.type = .push
  sender : s.sender = some sent
  open_eq : s.multipartOpen = false

/-- A socket in the middle of a message. -/
structure Staged (sent : List (List UInt8)) (frames : List (List UInt8)) (s : SocketT) : Prop where
  type : s.type = .push
  sender : s.sender = some sent
  open_eq : s.multipartOpen = true
  staging : s.multipartStaging = encodeMessage frames
  count : s.multipartFrameCount = UInt32.ofNat frames.length

variable {s : SocketT} {sent frames : List (List UInt8)} {frame : List UInt8}

theorem Staged.appendFrame (h : Staged sent frames s) :
    Staged sent (frames ++ [frame]) (s.appendFrame frame) := by
  have hcount : s.multipartFrameCount + 1 = UInt32.ofNat (frames ++ [frame]).length := by
    rw [h.count, List.length_append, List.length_singleton, UInt32.ofNat_add]
    rfl
  refine ⟨h.type, h.sender, h.open_eq, ?_, hcount⟩
  rw [SocketT.appendFrame, hcount, h.staging, encodeMessage, encodeMessage, encodeFrames_concat,
    encodeFrame]
  simp only [storeU32, List.append_assoc]
  rfl

theorem Closed.openMultipart (h : Closed sent s) : Staged sent [] s.openMultipart :=
  ⟨h.type, h.sender, rfl, rfl, rfl⟩

/-- A frame of an open message that is not the last one. -/
theorem Staged.send_sndmore (h : Staged sent frames s) (frame : List UInt8) :
    ∃ s', s.send frame .sndmore = .ok s' ∧ Staged sent (frames ++ [frame]) s' := by
  refine ⟨s.appendFrame frame, ?_, h.appendFrame⟩
  rw [send, h.type, h.sender]
  exact if_pos h.open_eq

theorem Closed.send_sndmore (h : Closed sent s) (frame : List UInt8) :
    ∃ s', s.send frame .sndmore = .ok s' ∧ Staged sent [frame] s' := by
  refine ⟨s.openMultipart.appendFrame frame, ?_, h.openMultipart.appendFrame⟩
  rw [send, h.type, h.sender]
  exact if_neg (by rw [h.open_eq]; decide)

theorem Staged.send_none (h : Staged sent frames s) (frame : List UInt8) :
    ∃ s', s.send frame .none = .ok s' ∧
      Closed (sent ++ [encodeMessage (frames ++ [frame])]) s' := by
  have happend := @Staged.appendFrame s sent frames frame h
  refine ⟨{ s.appendFrame frame with
      sender := some (sent ++ [(s.appendFrame frame).multipartStaging])
      multipartStaging := []
      multipartOpen := false
      multipartFrameCount := 0 }, ?_, happend.type, ?_, rfl⟩
  · rw [send, h.type, h.sender]
    exact if_pos h.open_eq
  · rw [happend.staging]

theorem Staged.sendMessage {rest : List (List UInt8)} (hrest : rest ≠ [])
    (h : Staged sent frames s) :
    ∃ s', s.sendMessage rest = .ok s' ∧ Closed (sent ++ [encodeMessage (frames ++ rest)]) s' := by
  induction rest generalizing s frames with
  | nil => exact absurd rfl hrest
  | cons frame rest ih =>
    cases rest with
    | nil => exact h.send_none frame
    | cons frame' rest =>
      obtain ⟨s', hsend, hstaged⟩ := h.send_sndmore frame
      obtain ⟨s'', hmessage, hclosed⟩ := ih (List.cons_ne_nil _ _) hstaged
      rw [List.append_assoc] at hclosed
      refine ⟨s'', ?_, hclosed⟩
      rw [SocketT.sendMessage, hsend]
      · exact hmessage
      · simp

theorem Closed.sendMessage (h : Closed sent s) (m : MultipartMessage) :
    ∃ s', s.sendMessage m.frames = .ok s' ∧ Closed (sent ++ [encodeMessage m.frames]) s' := by
  obtain ⟨frames, htwo, -, -⟩ := m
  match frames, htwo with
  | frame :: frame' :: rest, _ =>
    obtain ⟨s', hsend, hstaged⟩ := h.send_sndmore frame
    obtain ⟨s'', hmessage, hclosed⟩ := hstaged.sendMessage (List.cons_ne_nil frame' rest)
    refine ⟨s'', ?_, hclosed⟩
    rw [SocketT.sendMessage, hsend]
    · exact hmessage
    · simp

theorem Closed.sendMessages (h : Closed sent s) (messages : List MultipartMessage) :
    ∃ s', s.sendMessages (messages.map (·.frames)) = .ok s' ∧
      Closed (sent ++ messages.map fun m => encodeMessage m.frames) s' := by
  induction messages generalizing s sent with
  | nil => exact ⟨s, rfl, by rwa [List.map_nil, List.append_nil]⟩
  | cons m messages ih =>
    obtain ⟨s', hsend, hclosed⟩ := h.sendMessage m
    obtain ⟨s'', hmessages, hclosed'⟩ := ih hclosed
    rw [List.append_assoc, List.singleton_append] at hclosed'
    refine ⟨s'', ?_, hclosed'⟩
    rw [List.map_cons, SocketT.sendMessages, hsend]
    exact hmessages

/-- **Framing.** Each message of a sequence is emitted as one payload, that depends on nothing but
the message and is decoded to its frames, and the socket is ready for the next one. Whatever payload
arrives, the decoder stays inside and returns the payload or frames that stand in it. -/
theorem recvMultipart_sendMessages :
    (∀ (s : SocketT) (sent : List (List UInt8)) (messages : List MultipartMessage), Closed sent s →
      ∃ s', s.sendMessages (messages.map (·.frames)) = .ok s' ∧
        Closed (sent ++ messages.map fun m => encodeMessage m.frames) s' ∧
        ∀ m ∈ messages, recvMultipart (encodeMessage m.frames) = some m.frames) ∧
    ∀ payload, ∃ frames, recvMultipart payload = some frames ∧
      (frames = [payload] ∨
        ∃ header rest, header.length = 8 ∧ (∀ frame ∈ frames, frame.length < 2 ^ 32) ∧
          payload = header ++ encodeFrames frames ++ rest) := by
  refine ⟨fun s sent messages h => ?_, recvMultipart_spec⟩
  obtain ⟨s', hsend, hclosed⟩ := h.sendMessages messages
  exact ⟨s', hsend, hclosed, fun m _ => recvMultipart_encodeMessage m.count_lt m.frame_lt⟩

/-- Two messages, the first with an empty frame, over a staging buffer that holds something. -/
theorem recvMultipart_sendMessages_pair :
    ∃ s', (SocketT.mk .push (some []) [7] false 3).sendMessages [[[], [1, 2]], [[3], [4], [5]]] =
        .ok s' ∧
      Closed [encodeMessage [[], [1, 2]], encodeMessage [[3], [4], [5]]] s' ∧
      recvMultipart (encodeMessage [[], [1, 2]]) = some [[], [1, 2]] := by
  have h := recvMultipart_sendMessages.1 (SocketT.mk .push (some []) [7] false 3) []
    [⟨[[], [1, 2]], by simp, by simp, by simp⟩, ⟨[[3], [4], [5]], by simp, by simp, by simp⟩]
    ⟨rfl, rfl, rfl⟩
  simp only [List.map_cons, List.map_nil, List.nil_append] at h
  obtain ⟨s', hsend, hclosed, hrecv⟩ := h
  exact ⟨s', hsend, hclosed,
    hrecv ⟨[[], [1, 2]], by simp, by simp, by simp⟩ List.mem_cons_self⟩

end SocketT

end StreamEP
