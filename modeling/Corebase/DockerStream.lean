import Corebase.Loops
import Corebase.Utf8Text

namespace Corebase.DockerStream

open JsText (Text)
open Loops Utf8Text

structure Output where
  stdout : Text
  stderr : Text
deriving DecidableEq

/-- The variables of the loop of demux. -/
structure State where
  i : Nat
  out : Buffer
  err : Buffer
deriving DecidableEq

/-! Reads that answer nothing outside the buffer -/

def readUInt32BE (buf : Buffer) (i : Nat) : Option Nat := do
  let a ← buf[i]?
  let b ← buf[i + 1]?
  let c ← buf[i + 2]?
  let d ← buf[i + 3]?
  return a.toNat * 2 ^ 24 + b.toNat * 2 ^ 16 + c.toNat * 2 ^ 8 + d.toNat

def subarray (buf : Buffer) (start stop : Nat) : Option Buffer :=
  if start ≤ stop ∧ stop ≤ buf.length then some ((buf.take stop).drop start) else none

section Code

variable (buf : Buffer)

def hasHeader (s : State) : Bool := s.i + 8 ≤ buf.length

def turn (s : State) : Option State := do
  let stream ← buf[s.i]?
  let len ← readUInt32BE buf (s.i + 4)
  let start := s.i + 8
  let stop := min (start + len) buf.length
  let part ← subarray buf start stop
  return if stream = 2 then { i := stop, out := s.out, err := s.err ++ part }
    else { i := stop, out := s.out ++ part, err := s.err }

/-- No answer means that a read is outside the buffer, or that the loop takes more turns than there are bytes. -/
def demux : Option Output :=
  if buf.length = 0 then some ⟨[], []⟩
  else do
    let first ← buf[0]?
    if first ≠ 1 ∧ first ≠ 2 then return ⟨decode buf, []⟩
    let s ← loop (hasHeader buf) (turn buf) buf.length ⟨0, [], []⟩
    return ⟨decode s.out, decode s.err⟩

end Code

/-! What docker writes -/

inductive Stream
  | stdout
  | stderr
deriving DecidableEq

def Stream.byte : Stream → UInt8
  | .stdout => 1
  | .stderr => 2

/-- The length of a payload fits in its field. -/
structure Frame where
  stream : Stream
  payload : Buffer
  fits : payload.length < 2 ^ 32

def uint32BE (n : Nat) : Buffer :=
  [UInt8.ofNat (n / 2 ^ 24), UInt8.ofNat (n / 2 ^ 16), UInt8.ofNat (n / 2 ^ 8), UInt8.ofNat n]

def Frame.bytes (f : Frame) : Buffer := [f.stream.byte, 0, 0, 0] ++ uint32BE f.payload.length ++ f.payload

def multiplex (frames : List Frame) : Buffer := frames.flatMap Frame.bytes

def payloads (stream : Stream) (frames : List Frame) : Buffer :=
  (frames.filter fun f => f.stream = stream).flatMap Frame.payload

/-! One turn -/

theorem length_bytes (f : Frame) : f.bytes.length = 8 + f.payload.length := by
  simp only [Frame.bytes, uint32BE, List.length_append, List.length_cons, List.length_nil]

theorem read_after (pre rest : Buffer) (k : Nat) : (pre ++ rest)[pre.length + k]? = rest[k]? := by
  rw [List.getElem?_append_right (Nat.le_add_right _ _), Nat.add_sub_cancel_left]

theorem readUInt32BE_written {n : Nat} (h : n < 2 ^ 32) (pre rest : Buffer) :
    readUInt32BE (pre ++ (uint32BE n ++ rest)) pre.length = some n := by
  have hread := read_after pre (uint32BE n ++ rest)
  have hfirst : (pre ++ (uint32BE n ++ rest))[pre.length]? = some (UInt8.ofNat (n / 2 ^ 24)) := hread 0
  have hsecond : (pre ++ (uint32BE n ++ rest))[pre.length + 1]? = some (UInt8.ofNat (n / 2 ^ 16)) := hread 1
  have hthird : (pre ++ (uint32BE n ++ rest))[pre.length + 2]? = some (UInt8.ofNat (n / 2 ^ 8)) := hread 2
  have hfourth : (pre ++ (uint32BE n ++ rest))[pre.length + 3]? = some (UInt8.ofNat n) := hread 3
  simp only [readUInt32BE, hfirst, hsecond, hthird, hfourth, Option.bind_eq_bind, Option.bind_some, Option.pure_def,
    UInt8.toNat_ofNat']
  congr 1
  omega

theorem subarray_written (pre part rest : Buffer) :
    subarray (pre ++ (part ++ rest)) pre.length (pre.length + part.length) = some part := by
  have hinside : pre.length + part.length ≤ (pre ++ (part ++ rest)).length := by
    simp only [List.length_append]
    omega
  rw [subarray, if_pos ⟨Nat.le_add_right _ _, hinside⟩, ← List.append_assoc, ← List.length_append, List.take_left,
    List.drop_left]

/-- What a frame adds to either output. -/
def State.add (s : State) (f : Frame) : State :=
  { i := s.i + f.bytes.length
    out := s.out ++ payloads .stdout [f]
    err := s.err ++ payloads .stderr [f] }

theorem turn_frame (pre rest out err : Buffer) (f : Frame) :
    turn (pre ++ (f.bytes ++ rest)) ⟨pre.length, out, err⟩ = some (State.add ⟨pre.length, out, err⟩ f) := by
  have hwhole : pre ++ (f.bytes ++ rest) =
      (pre ++ [f.stream.byte, 0, 0, 0]) ++ (uint32BE f.payload.length ++ (f.payload ++ rest)) := by
    simp only [Frame.bytes, List.append_assoc]
  have hpayload : pre ++ (f.bytes ++ rest) =
      (pre ++ [f.stream.byte, 0, 0, 0] ++ uint32BE f.payload.length) ++ (f.payload ++ rest) := by
    simp only [Frame.bytes, List.append_assoc]
  have hstream : (pre ++ (f.bytes ++ rest))[pre.length]? = some f.stream.byte := read_after pre (f.bytes ++ rest) 0
  have hlen : readUInt32BE (pre ++ (f.bytes ++ rest)) (pre.length + 4) = some f.payload.length := by
    have hread := readUInt32BE_written f.fits (pre ++ [f.stream.byte, 0, 0, 0]) (f.payload ++ rest)
    rwa [← hwhole, List.length_append] at hread
  have hstop : min (pre.length + 8 + f.payload.length) (pre ++ (f.bytes ++ rest)).length = pre.length + f.bytes.length := by
    simp only [List.length_append, length_bytes]
    omega
  have hpart : subarray (pre ++ (f.bytes ++ rest)) (pre.length + 8) (pre.length + f.bytes.length) = some f.payload := by
    have hread := subarray_written (pre ++ [f.stream.byte, 0, 0, 0] ++ uint32BE f.payload.length) f.payload rest
    rw [← hpayload, List.length_append, List.length_append] at hread
    rwa [length_bytes, ← Nat.add_assoc]
  simp only [turn, hstream, hlen, hstop, hpart, Option.bind_eq_bind, Option.bind_some, Option.pure_def, State.add]
  congr 1
  cases hf : f.stream with
  | stdout => simp [Stream.byte, payloads, hf]
  | stderr => simp [Stream.byte, payloads, hf]

/-! The whole loop -/

theorem add_cons (s : State) (f : Frame) (frames : List Frame) :
    s.out ++ payloads .stdout (f :: frames) = (s.add f).out ++ payloads .stdout frames ∧
      s.err ++ payloads .stderr (f :: frames) = (s.add f).err ++ payloads .stderr frames := by
  cases hf : f.stream <;> simp [State.add, payloads, hf]

theorem loop_frames (pre : Buffer) (frames : List Frame) (out err : Buffer) {n : Nat} (hn : frames.length < n) :
    loop (hasHeader (pre ++ multiplex frames)) (turn (pre ++ multiplex frames)) n ⟨pre.length, out, err⟩ =
      some ⟨(pre ++ multiplex frames).length, out ++ payloads .stdout frames, err ++ payloads .stderr frames⟩ := by
  induction frames generalizing pre out err n with
  | nil =>
      obtain ⟨n, rfl⟩ := Nat.exists_eq_add_one.mpr hn
      rw [loop_stop n (by simp [hasHeader, multiplex])]
      simp [multiplex, payloads]
  | cons f frames ih =>
      obtain ⟨n, rfl⟩ := Nat.exists_eq_add_one.mpr (Nat.zero_lt_of_lt hn)
      have hwhole : pre ++ multiplex (f :: frames) = pre ++ (f.bytes ++ multiplex frames) := rfl
      have hguard : hasHeader (pre ++ (f.bytes ++ multiplex frames)) ⟨pre.length, out, err⟩ = true := by
        simp only [hasHeader, List.length_append, length_bytes, decide_eq_true_eq]
        omega
      obtain ⟨hout, herr⟩ := add_cons ⟨pre.length, out, err⟩ f frames
      rw [hwhole, loop_turn n hguard (turn_frame pre (multiplex frames) out err f), hout, herr, ← List.append_assoc]
      have hrest := ih (pre ++ f.bytes) (State.add ⟨pre.length, out, err⟩ f).out (State.add ⟨pre.length, out, err⟩ f).err
        (Nat.lt_of_succ_lt_succ hn)
      rwa [List.length_append] at hrest

theorem length_multiplex (frames : List Frame) : 8 * frames.length ≤ (multiplex frames).length := by
  induction frames with
  | nil => exact Nat.le_refl _
  | cons f frames ih =>
      rw [multiplex, List.flatMap_cons, List.length_append, length_bytes, List.length_cons, ← multiplex]
      omega

theorem demux_multiplex (frames : List Frame) : demux (multiplex frames) =
    some ⟨decode (payloads .stdout frames), decode (payloads .stderr frames)⟩ := by
  cases frames with
  | nil => rfl
  | cons f frames =>
      have hlength := length_multiplex (f :: frames)
      rw [List.length_cons] at hlength
      have hfirst : (multiplex (f :: frames))[0]? = some f.stream.byte := rfl
      have hknown : ¬ (f.stream.byte ≠ 1 ∧ f.stream.byte ≠ 2) := by cases f.stream <;> decide
      have hloop := loop_frames [] (f :: frames) [] [] (n := (multiplex (f :: frames)).length)
        (by rw [List.length_cons]; omega)
      rw [demux, if_neg (by omega), hfirst]
      simp only [Option.bind_eq_bind, Option.bind_some, if_neg hknown]
      rw [List.nil_append] at hloop
      rw [List.length_nil] at hloop
      rw [hloop]
      rfl

/-- Within the buffer, a turn reads nothing outside it and moves by a header at least. -/
theorem turn_inside (buf : Buffer) (s : State) (h : hasHeader buf s = true) :
    ∃ s', turn buf s = some s' ∧ s.i + 8 ≤ s'.i ∧ s'.i ≤ buf.length := by
  simp only [hasHeader, decide_eq_true_eq] at h
  have hat : ∀ k < 8, ∃ b, buf[s.i + k]? = some b := fun k hk => ⟨_, List.getElem?_eq_getElem (by omega)⟩
  obtain ⟨stream, hstream⟩ := hat 0 (by decide)
  obtain ⟨len, hlen⟩ : ∃ len, readUInt32BE buf (s.i + 4) = some len := by
    obtain ⟨a, ha⟩ := hat 4 (by decide)
    obtain ⟨b, hb⟩ := hat 5 (by decide)
    obtain ⟨c, hc⟩ := hat 6 (by decide)
    obtain ⟨d, hd⟩ := hat 7 (by decide)
    simp only [readUInt32BE, ha, hb, hc, hd, Option.bind_eq_bind, Option.bind_some, Option.pure_def]
    exact ⟨_, rfl⟩
  have hpart : subarray buf (s.i + 8) (min (s.i + 8 + len) buf.length) =
      some ((buf.take (min (s.i + 8 + len) buf.length)).drop (s.i + 8)) := if_pos (by omega)
  rw [Nat.add_zero] at hstream
  simp only [turn, hstream, hlen, hpart, Option.bind_eq_bind, Option.bind_some, Option.pure_def]
  split
  · exact ⟨_, rfl, by dsimp only; omega, Nat.min_le_right _ _⟩
  · exact ⟨_, rfl, by dsimp only; omega, Nat.min_le_right _ _⟩

theorem demux_ends (buf : Buffer) : ∃ output, demux buf = some output := by
  by_cases hempty : buf.length = 0
  · exact ⟨_, if_pos hempty⟩
  · have hfirst : buf[0]? = some buf[0] := List.getElem?_eq_getElem (Nat.pos_of_ne_zero hempty)
    have hturn : ∀ s : State, s.i ≤ buf.length → hasHeader buf s = true → ∃ s', turn buf s = some s' ∧
        s'.i ≤ buf.length ∧ (buf.length - s'.i) / 8 < (buf.length - s.i) / 8 := by
      intro s _ hguard
      obtain ⟨s', hs', hless, hle⟩ := turn_inside buf s hguard
      simp only [hasHeader, decide_eq_true_eq] at hguard
      exact ⟨s', hs', hle, by omega⟩
    obtain ⟨s', hloop, -⟩ := @loop_ends State (hasHeader buf) (turn buf) ⟨0, [], []⟩ (fun s => s.i ≤ buf.length)
      (fun s => (buf.length - s.i) / 8) hturn buf.length (Nat.zero_le _) (by dsimp only; omega)
    rw [demux, if_neg hempty, hfirst]
    simp only [Option.bind_eq_bind, Option.bind_some, hloop]
    split
    · exact ⟨_, rfl⟩
    · exact ⟨_, rfl⟩

/-- What docker has written comes apart into its two streams; and of no buffer is anything read outside it. -/
theorem demux_exact :
    (∀ frames, demux (multiplex frames) =
      some ⟨decode (payloads .stdout frames), decode (payloads .stderr frames)⟩) ∧
    ∀ buf, ∃ output, demux buf = some output :=
  ⟨demux_multiplex, demux_ends⟩

end Corebase.DockerStream
