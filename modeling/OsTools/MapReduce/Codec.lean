import OsTools.Lib.BigEndian
import OsTools.Lib.Except
/-!
# OsTools.MapReduce.Codec

Streams of length-delimited packets (`codec/mod.rs` of `hw-map-reduce`). A writer puts the
length of each packet in front of it, as a big-endian `u32`; a reader takes the packets off
again.

`write_spec` and `collect_eq_ok` say when a writer and a reader run to their end without a
panic; `codec_inverse` is that they are inverse to each other.

## Proof shape

A frame is the length and then the packet. `next_eq_some` says what a reader takes off is a
frame at the front of the buffer, in both directions, and so a reader that runs to its end
has been over a concatenation of frames (`collect_eq_ok`), by induction on the length of the
buffer. The writer makes the same concatenation (`write_spec`), if every length fits into 32
bits. Both directions of the inverse are these two facts with the injectivity of the
length's encoding.
-/

namespace OsTools.MapReduce

/-- The contents of a `Bytes` or a `BytesMut`. -/
abbrev Bytes := List UInt8

/-- `u32::MAX`. -/
def u32Max : Nat := 2 ^ 32 - 1

/-- The panics of the codec. -/
inductive Panic
  | packetTooLarge
  /-- `get_u32` on fewer than four bytes. -/
  | advance
  /-- `split_to` behind the end. -/
  | splitTo
  deriving DecidableEq

/-! ### Buffers -/

/-- `BufMut::put_u32`. -/
def putU32 (buf : Bytes) (v : Nat) : Bytes := buf ++ BigEndian.toBytes 4 v

/-- `Buf::get_u32`. -/
def getU32 (buf : Bytes) : Except Panic (Nat × Bytes) :=
  if buf.length < 4 then .error .advance
  else .ok (BigEndian.ofBytes (buf.take 4), buf.drop 4)

/-- `Bytes::split_to`. -/
def splitTo (buf : Bytes) (pos : Nat) : Except Panic (Bytes × Bytes) :=
  if buf.length < pos then .error .splitTo
  else .ok (buf.take pos, buf.drop pos)

/-! ### The writer -/

structure LengthDelimitedWriter where
  buf : Bytes

namespace LengthDelimitedWriter

def new : LengthDelimitedWriter := ⟨[]⟩

def send (w : LengthDelimitedWriter) (b : Bytes) : Except Panic LengthDelimitedWriter :=
  if u32Max < b.length then .error .packetTooLarge
  else .ok ⟨putU32 w.buf b.length ++ b⟩

def finish (w : LengthDelimitedWriter) : Bytes := w.buf

/-- `send` for each of the packets in turn. -/
def sendAll (w : LengthDelimitedWriter) (packets : List Bytes) :
    Except Panic LengthDelimitedWriter :=
  packets.foldlM send w

end LengthDelimitedWriter

/-- The buffer that a new writer produces for the packets. -/
def writePackets (packets : List Bytes) : Except Panic Bytes := do
  let w ← LengthDelimitedWriter.new.sendAll packets
  .ok w.finish

/-- The bytes of a `String`. -/
def utf8 (s : String) : Bytes := s.toUTF8.toList

/-- `serialize_args` (`client.rs`). -/
def serializeArgs (args : List String) : Except Panic Bytes := writePackets (args.map utf8)

/-! ### The reader -/

structure LengthDelimitedReader where
  buf : Bytes

namespace LengthDelimitedReader

def new (buf : Bytes) : LengthDelimitedReader := ⟨buf⟩

/-- `Iterator::next`: the packet and what is left to read. -/
def next (r : LengthDelimitedReader) : Except Panic (Option (Bytes × LengthDelimitedReader)) :=
  if r.buf = [] then .ok none
  else do
    let (len, buf) ← getU32 r.buf
    let (chunk, buf) ← splitTo buf len
    .ok (some (chunk, ⟨buf⟩))

/-- One packet with its length in front. -/
def frame (b : Bytes) : Bytes := BigEndian.toBytes 4 b.length ++ b

variable {r r' : LengthDelimitedReader} {chunk : Bytes} {packets : List Bytes} {buf : Bytes}

/-- **What `next` yields** is the frame at the front of the buffer. -/
theorem next_eq_some (h : r.next = .ok (some (chunk, r'))) :
    chunk.length ≤ u32Max ∧ r.buf = frame chunk ++ r'.buf := by
  unfold next at h
  split at h
  · simp at h
  · obtain ⟨⟨len, buf⟩, hlen, h⟩ := bind_eq_ok h
    obtain ⟨⟨c, rest⟩, hchunk, h⟩ := bind_eq_ok h
    unfold getU32 at hlen
    unfold splitTo at hchunk
    split at hlen
    · simp at hlen
    split at hchunk
    · simp at hchunk
    rename_i hfour hroom
    simp only [Except.ok.injEq, Prod.mk.injEq, Option.some.injEq] at hlen hchunk h
    obtain ⟨rfl, rfl⟩ := hlen
    obtain ⟨rfl, rfl⟩ := hchunk
    obtain ⟨rfl, rfl⟩ := h
    -- both reads stayed within the buffer, so the parts have their full lengths
    have htake : (r.buf.take 4).length = 4 := by simp; omega
    have hcount : ((r.buf.drop 4).take (BigEndian.ofBytes (r.buf.take 4))).length =
        BigEndian.ofBytes (r.buf.take 4) := by simp at hroom ⊢; omega
    have hlt := BigEndian.ofBytes_lt (r.buf.take 4)
    have hback := BigEndian.toBytes_ofBytes (r.buf.take 4)
    rw [htake] at hlt hback
    refine ⟨?_, ?_⟩
    · rw [hcount]
      unfold u32Max
      omega
    · unfold frame
      rw [hcount, hback, List.append_assoc, List.take_append_drop, List.take_append_drop]

/-- The iteration comes to an end. -/
theorem next_shorter (h : r.next = .ok (some (chunk, r'))) : r'.buf.length < r.buf.length := by
  rw [(next_eq_some h).2]
  simp [frame]
  omega

/-- `collect::<Vec<_>>()`. -/
def collect (r : LengthDelimitedReader) : Except Panic (List Bytes) :=
  match _h : r.next with
  | .error e => .error e
  | .ok none => .ok []
  | .ok (some (chunk, r')) => do
      let chunks ← collect r'
      .ok (chunk :: chunks)
termination_by r.buf.length
decreasing_by exact next_shorter _h

theorem next_frame (hlen : chunk.length ≤ u32Max) (buf : Bytes) :
    (new (frame chunk ++ buf)).next = .ok (some (chunk, new buf)) := by
  have hlength : (frame chunk ++ buf).length = 4 + chunk.length + buf.length := by
    unfold frame
    rw [List.length_append, List.length_append, BigEndian.length_toBytes]
  have hne : frame chunk ++ buf ≠ [] := by
    intro hnil
    rw [hnil, List.length_nil] at hlength
    omega
  have hfour : (frame chunk ++ buf).take 4 = BigEndian.toBytes 4 chunk.length := by simp [frame]
  have hrest : (frame chunk ++ buf).drop 4 = chunk ++ buf := by simp [frame]
  have hread : BigEndian.ofBytes (BigEndian.toBytes 4 chunk.length) = chunk.length :=
    BigEndian.ofBytes_toBytes_of_lt (by unfold u32Max at hlen; omega)
  unfold next new getU32
  rw [if_neg hne, if_neg (by simp [frame]), ok_bind, hfour, hrest, hread]
  dsimp only [splitTo]
  rw [if_neg (by simp), ok_bind]
  simp

theorem collect_new_nil : (new []).collect = .ok [] := by
  rw [collect]
  simp [next, new]

theorem collect_frame (hlen : chunk.length ≤ u32Max) (buf : Bytes) :
    (new (frame chunk ++ buf)).collect = (new buf).collect >>= fun ps => .ok (chunk :: ps) := by
  rw [collect]
  have hnext := next_frame hlen buf
  split
  · simp_all
  · simp_all
  · rename_i c r' hsome
    rw [hnext] at hsome
    simp only [Except.ok.injEq, Option.some.injEq, Prod.mk.injEq] at hsome
    obtain ⟨rfl, rfl⟩ := hsome
    rfl

/-- **When a reader runs to its end**, and with what: the buffer is the frames of packets that
fit, one after the other, and these packets are what it yields. From left to right by
induction on the length of the buffer, from right to left on the packets. -/
theorem collect_eq_ok : (new buf).collect = .ok packets ↔
    (∀ p ∈ packets, p.length ≤ u32Max) ∧ buf = packets.flatMap frame := by
  constructor
  · intro h
    induction packets generalizing buf with
    | nil =>
        rw [collect] at h
        split at h
        · simp at h
        · rename_i hnone
          unfold next at hnone
          split at hnone
          · rename_i hnil
            exact ⟨by simp, hnil⟩
          · obtain ⟨_, -, hnone⟩ := bind_eq_ok hnone
            obtain ⟨_, -, hnone⟩ := bind_eq_ok hnone
            simp at hnone
        · obtain ⟨_, -, h⟩ := bind_eq_ok h
          simp at h
    | cons p packets ih =>
        rw [collect] at h
        split at h
        · simp at h
        · simp at h
        · rename_i chunk r' hsome
          obtain ⟨ps, hps, h⟩ := bind_eq_ok h
          obtain ⟨rfl, rfl⟩ := List.cons.inj (Except.ok.inj h)
          obtain ⟨hlen, hbuf⟩ := next_eq_some hsome
          obtain ⟨hall, hrest⟩ := ih hps
          refine ⟨?_, ?_⟩
          · intro q hq
            rcases List.mem_cons.mp hq with rfl | hq
            · exact hlen
            · exact hall q hq
          · rw [List.flatMap_cons, ← hrest]
            exact hbuf
  · rintro ⟨hall, rfl⟩
    induction packets with
    | nil => exact collect_new_nil
    | cons p packets ih =>
        rw [List.flatMap_cons, collect_frame (hall p (by simp)),
          ih fun q hq => hall q (by simp [hq]), ok_bind]

end LengthDelimitedReader

/-! ### Round trips -/

open LengthDelimitedReader (frame)

variable {packets : List Bytes} {buf : Bytes}

theorem sendAll_eq_ok {w w' : LengthDelimitedWriter} : w.sendAll packets = .ok w' ↔
    (∀ p ∈ packets, p.length ≤ u32Max) ∧ w'.buf = w.buf ++ packets.flatMap frame := by
  unfold LengthDelimitedWriter.sendAll
  induction packets generalizing w with
  | nil =>
      cases w
      cases w'
      simp [pure, Except.pure, eq_comm]
  | cons p packets ih =>
      rw [List.foldlM_cons]
      by_cases hp : u32Max < p.length
      · have hsend : w.send p = .error .packetTooLarge := if_pos hp
        -- the assertion of `send` fails, and the packets after it are not sent
        have hno : ¬ p.length ≤ u32Max := by omega
        simp [hsend, bind, Except.bind, hno]
      · have hsend : w.send p = .ok ⟨putU32 w.buf p.length ++ p⟩ := if_neg hp
        have hle : p.length ≤ u32Max := by omega
        rw [hsend, ok_bind, ih]
        simp [putU32, frame, hle]

/-- **When a writer takes all the packets**, and what it makes of them. -/
theorem write_spec : writePackets packets = .ok buf ↔
    (∀ p ∈ packets, p.length ≤ u32Max) ∧ buf = packets.flatMap frame := by
  unfold writePackets LengthDelimitedWriter.finish
  constructor
  · intro h
    obtain ⟨w, hw, h⟩ := bind_eq_ok h
    obtain ⟨hall, hbuf⟩ := sendAll_eq_ok.mp hw
    rw [← Except.ok.inj h]
    exact ⟨hall, hbuf⟩
  · rintro ⟨hall, rfl⟩
    have hw := (@sendAll_eq_ok packets LengthDelimitedWriter.new ⟨packets.flatMap frame⟩).mpr
      ⟨hall, rfl⟩
    rw [hw, ok_bind]

/-- **Writing and reading are inverse to each other.** Packets that fit are read back as they
were written; and where a reader runs to its end, writing what it yielded gives its buffer
again. -/
theorem codec_inverse :
    (∀ packets, (∀ p ∈ packets, p.length ≤ u32Max) →
      ∃ buf, writePackets packets = .ok buf ∧
        (LengthDelimitedReader.new buf).collect = .ok packets) ∧
    ∀ buf packets, (LengthDelimitedReader.new buf).collect = .ok packets →
      writePackets packets = .ok buf := by
  refine ⟨?_, ?_⟩
  · intro packets hall
    exact ⟨packets.flatMap frame, write_spec.mpr ⟨hall, rfl⟩,
      LengthDelimitedReader.collect_eq_ok.mpr ⟨hall, rfl⟩⟩
  · intro buf packets h
    exact write_spec.mpr (LengthDelimitedReader.collect_eq_ok.mp h)

/-- An empty packet, and one whose contents look like a header. -/
theorem codec_inverse_header :
    writePackets [[], [0, 0, 0, 9]] = .ok [0, 0, 0, 0, 0, 0, 0, 4, 0, 0, 0, 9] ∧
    (LengthDelimitedReader.new [0, 0, 0, 0, 0, 0, 0, 4, 0, 0, 0, 9]).collect =
      .ok [[], [0, 0, 0, 9]] := by
  obtain ⟨buf, hwrite, hread⟩ := codec_inverse.1 [[], [0, 0, 0, 9]] (by decide)
  have hbuf : writePackets [[], [0, 0, 0, 9]] = .ok [0, 0, 0, 0, 0, 0, 0, 4, 0, 0, 0, 9] := by
    decide
  obtain rfl := Except.ok.inj (hbuf.symm.trans hwrite)
  exact ⟨codec_inverse.2 _ _ hread, hread⟩

/-- The arguments of a job can be read back from what `serialize_args` makes of them. -/
theorem collect_serializeArgs {args : List String} (h : serializeArgs args = .ok buf) :
    (LengthDelimitedReader.new buf).collect = .ok (args.map utf8) :=
  LengthDelimitedReader.collect_eq_ok.mpr (write_spec.mp h)

end OsTools.MapReduce
