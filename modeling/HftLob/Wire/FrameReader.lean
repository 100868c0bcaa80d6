import HftLob.Lib.Framing
import HftLob.Lib.Mealy
import HftLob.Wire.Protocol

/-!
# The frame reader

`FrameReader` keeps the bytes that have come in and not gone out in a frame. `feed`
appends to them; `next_frame` takes the first frame off if all of it is there. Since a
frame's length is in its first two bytes, what comes out does not depend on where the
stream was cut into pieces.
-/

namespace HftLob.Wire

open HftLob.Lib HftLob.Lib.Bytes HftLob.Lib.Framing

/-! ## Frames -/

/-- Seven bytes, and as many more as the first two say. -/
def frameFormat : Format UInt8 where
  size s := if headerSize + field 0 2 s ≤ s.length then some (headerSize + field 0 2 s) else none
  size_pos := by
    intro s n h
    split at h
    · cases h
      exact Nat.add_pos_left (by decide) _
    · exact absurd h (by simp)
  size_le := by
    intro s n h
    split at h
    · cases h
      assumption
    · exact absurd h (by simp)
  size_append := by
    intro s n t h
    split at h
    · rename_i hle
      cases h
      have hsize : headerSize = 7 := rfl
      rw [field_append (by omega), if_pos (by rw [List.length_append]; omega)]
    · exact absurd h (by simp)
  size_take := by
    intro s n h
    split at h
    · rename_i hle
      cases h
      have hsize : headerSize = 7 := rfl
      have hlen : (s.take (headerSize + field 0 2 s)).length = headerSize + field 0 2 s :=
        List.length_take_of_le hle
      have hfield : field 0 2 (s.take (headerSize + field 0 2 s)) = field 0 2 s := by
        rw [← field_append (by omega) (s.drop (headerSize + field 0 2 s)), List.take_append_drop]
      rw [hfield, if_pos (Nat.le_of_eq hlen.symm)]
    · exact absurd h (by simp)

theorem size_frameFormat {s : List UInt8} {n : Nat} :
    frameFormat.size s = some n ↔ n = headerSize + field 0 2 s ∧ n ≤ s.length := by
  show (if _ then _ else _) = some n ↔ _
  split
  · rename_i h
    rw [Option.some.injEq]
    constructor
    · rintro rfl
      exact ⟨rfl, h⟩
    · exact fun hn => hn.1.symm
  · rename_i h
    constructor
    · exact fun hn => absurd hn (by simp)
    · rintro ⟨rfl, hle⟩
      exact absurd hle h

/-- A frame as it is put on the wire, with a body that its length field can count. -/
structure Frame where
  msgType : UInt8
  seqNum : UInt32
  body : List UInt8
  body_lt : body.length < 2 ^ 16
  deriving DecidableEq

namespace Frame

def header (f : Frame) : MsgHeader := ⟨UInt16.ofNat f.body.length, f.msgType, f.seqNum⟩

def bytes (f : Frame) : List UInt8 := f.header.bytes ++ f.body

@[simp] theorem length_bytes (f : Frame) : f.bytes.length = headerSize + f.body.length := by
  simp [bytes]

theorem read_bytes (f : Frame) (rest : List UInt8) :
    MsgHeader.read (f.bytes ++ rest) = f.header := by
  rw [bytes, List.append_assoc, MsgHeader.read_bytes]

theorem read_bytes_self (f : Frame) : MsgHeader.read f.bytes = f.header := by
  have h := f.read_bytes []
  rwa [List.append_nil] at h

@[simp] theorem bodyLength_header (f : Frame) : f.header.bodyLength.toNat = f.body.length := by
  show (UInt16.ofNat f.body.length).toNat = _
  rw [UInt16.toNat_ofNat']
  exact Nat.mod_eq_of_lt f.body_lt

theorem field_bytes (f : Frame) : field 0 2 f.bytes = f.body.length := by
  rw [← bodyLength_read, read_bytes_self, bodyLength_header]

theorem bytes_injective : Function.Injective bytes := by
  intro f g h
  have hheader : f.header = g.header := by
    rw [← read_bytes_self, ← read_bytes_self, h]
  have hbody : f.body = g.body := by
    rw [bytes, bytes, hheader] at h
    exact List.append_cancel_left h
  cases f
  cases g
  rw [header, header, MsgHeader.mk.injEq] at hheader
  rw [mk.injEq]
  exact ⟨hheader.2.1, hheader.2.2, hbody⟩

theorem whole (f : Frame) : Whole frameFormat f.bytes :=
  size_frameFormat.mpr ⟨by rw [length_bytes, field_bytes], Nat.le_refl _⟩

/-- Every byte string that ends where its header says is a frame. -/
theorem exists_of_whole {b : List UInt8} (h : Whole frameFormat b) : ∃ f : Frame, f.bytes = b := by
  obtain ⟨hlen, _⟩ := size_frameFormat.mp h
  have hsize : headerSize = 7 := rfl
  have hbody : (b.drop headerSize).length = field 0 2 b := by
    rw [List.length_drop]
    omega
  have hlt : (b.drop headerSize).length < 2 ^ 16 := by
    rw [hbody]
    exact field_lt 0 2 b
  refine ⟨⟨(MsgHeader.read b).msgType, (MsgHeader.read b).seqNum, b.drop headerSize, hlt⟩, ?_⟩
  have hheader : (⟨UInt16.ofNat (b.drop headerSize).length, (MsgHeader.read b).msgType,
      (MsgHeader.read b).seqNum⟩ : MsgHeader) = MsgHeader.read b := by
    rw [hbody]
    rfl
  simp only [bytes, header]
  rw [hheader, MsgHeader.bytes_read (by omega), List.take_append_drop]

theorem exists_of_forall_whole {bs : List (List UInt8)} (h : ∀ b ∈ bs, Whole frameFormat b) :
    ∃ fs : List Frame, fs.map bytes = bs := by
  induction bs with
  | nil => exact ⟨[], rfl⟩
  | cons b bs ih =>
      obtain ⟨f, rfl⟩ := exists_of_whole (h b List.mem_cons_self)
      obtain ⟨fs, rfl⟩ := ih fun b' hb' => h b' (List.mem_cons_of_mem _ hb')
      exact ⟨f :: fs, rfl⟩

/-- Every byte string is cut into frames. -/
theorem exists_cuts (s : List UInt8) :
    ∃ (fs : List Frame) (rest : List UInt8), Cuts frameFormat s (fs.map bytes) rest := by
  obtain ⟨bs, rest, hcut⟩ := Framing.exists_cuts frameFormat s
  obtain ⟨fs, rfl⟩ := exists_of_forall_whole hcut.whole
  exact ⟨fs, rest, hcut⟩

theorem cuts_unique {s rest rest' : List UInt8} {fs fs' : List Frame}
    (h : Cuts frameFormat s (fs.map bytes) rest) (h' : Cuts frameFormat s (fs'.map bytes) rest') :
    fs = fs' ∧ rest = rest' := by
  obtain ⟨hfs, hrest⟩ := h.unique h'
  exact ⟨List.map_injective_iff.mpr bytes_injective hfs, hrest⟩

end Frame

/-- What a client has to say. -/
inductive ClientMsg where
  | logon (m : LogonMsg)
  | newOrder (m : NewOrderMsg)
  | cancelOrder (m : CancelOrderMsg)
  deriving DecidableEq

namespace ClientMsg

def type : ClientMsg → MsgType
  | logon _ => .logon
  | newOrder _ => .newOrder
  | cancelOrder _ => .cancelOrder

def body : ClientMsg → List UInt8
  | logon m => m.bytes
  | newOrder m => m.bytes
  | cancelOrder m => m.bytes

theorem length_body_lt (msg : ClientMsg) : msg.body.length < 2 ^ 16 := by
  cases msg with
  | logon m => exact m.length_bytes ▸ (by decide)
  | newOrder m => exact m.length_bytes ▸ (by decide)
  | cancelOrder m => exact m.length_bytes ▸ (by decide)

def frame (seqNum : UInt32) (msg : ClientMsg) : Frame :=
  ⟨msg.type.byte, seqNum, msg.body, msg.length_body_lt⟩

end ClientMsg

/-! ## The reader -/

structure FrameReader where
  buffer : List UInt8
  deriving DecidableEq

namespace FrameReader

def init : FrameReader := ⟨[]⟩

def feed (r : FrameReader) (data : List UInt8) : FrameReader := ⟨r.buffer ++ data⟩

def nextFrame (r : FrameReader) : Option (List UInt8 × FrameReader) :=
  if r.buffer.length < headerSize then none -- not even a full header yet
  else
    let header := MsgHeader.read r.buffer
    let totalLen := headerSize + header.bodyLength.toNat
    if r.buffer.length < totalLen then none -- the body is not fully in yet
    else some (r.buffer.take totalLen, ⟨r.buffer.drop totalLen⟩)

theorem reads : Reads frameFormat nextFrame buffer where
  none := by
    intro r hr
    unfold nextFrame
    split
    · rfl
    · dsimp only
      rw [bodyLength_read]
      split
      · rfl
      · rename_i hlt
        have hsize := size_frameFormat.mpr ⟨rfl, Nat.le_of_not_lt hlt⟩
        rw [hr] at hsize
        exact absurd hsize (by simp)
  some := by
    intro r n hn
    obtain ⟨rfl, hle⟩ := size_frameFormat.mp hn
    refine ⟨⟨r.buffer.drop (headerSize + field 0 2 r.buffer)⟩, ?_, rfl⟩
    unfold nextFrame
    rw [if_neg (by omega)]
    dsimp only
    rw [bodyLength_read, if_neg (by omega)]

/-- What `next_frame` takes off the buffer is a frame. -/
theorem nextFrame_bytes {r : FrameReader} {n : Nat} (hn : frameFormat.size r.buffer = some n) :
    ∃ (f : Frame) (r' : FrameReader),
      r.nextFrame = some (f.bytes, r') ∧ r.buffer = f.bytes ++ r'.buffer := by
  obtain ⟨r', hnext, hbuf⟩ := reads.some hn
  have hwhole : Whole frameFormat (r.buffer.take n) := by
    rw [Whole, frameFormat.size_take hn, List.length_take_of_le (frameFormat.size_le hn)]
  obtain ⟨f, hf⟩ := Frame.exists_of_whole hwhole
  exact ⟨f, r', by rw [hf, hnext], by rw [hf, hbuf, List.take_append_drop]⟩

/-- `next_frame` until it returns nothing. -/
def readAll (r : FrameReader) : List (List UInt8) × FrameReader :=
  drain nextFrame r.buffer.length r

/-- Something the owner of a reader does with it. -/
inductive Call where
  | feed (chunk : List UInt8)
  | nextFrame
  deriving DecidableEq

/-- One call, with the frame it returned if it returned one. -/
def call (r : FrameReader) : Call → FrameReader × List (List UInt8)
  | .feed chunk => (r.feed chunk, [])
  | .nextFrame =>
      match r.nextFrame with
      | none => (r, [])
      | some (frame, r') => (r', [frame])

/-- Everything that was fed, in order. -/
def fed : List Call → List UInt8
  | [] => []
  | .feed chunk :: calls => chunk ++ fed calls
  | .nextFrame :: calls => fed calls

theorem fed_append (calls calls' : List Call) :
    fed (calls ++ calls') = fed calls ++ fed calls' := by
  induction calls with
  | nil => rfl
  | cons c calls ih =>
      cases c with
      | feed chunk => rw [List.cons_append, fed, fed, ih, List.append_assoc]
      | nextFrame => rw [List.cons_append, fed, fed, ih]

/-- The frames returned so far are the first that the bytes fed so far are cut into, and
what is left to cut is in the buffer, whatever may still come. -/
def Ahead (calls : List Call) (frames : List (List UInt8)) (r : FrameReader) : Prop :=
  ∀ later fs rest, Cuts frameFormat (r.buffer ++ later) fs rest →
    Cuts frameFormat (fed calls ++ later) (frames ++ fs) rest

theorem ahead_step {calls : List Call} {frames : List (List UInt8)} {r : FrameReader}
    (h : Ahead calls frames r) (c : Call) :
    Ahead (calls ++ [c]) (frames ++ (r.call c).2) (r.call c).1 := by
  intro later fs rest hcut
  rw [fed_append]
  cases c with
  | feed chunk =>
      have hcut' : Cuts frameFormat (r.buffer ++ (chunk ++ later)) fs rest := by
        rw [← List.append_assoc]
        exact hcut
      have := h _ fs rest hcut'
      simpa [fed, call] using this
  | nextFrame =>
      cases hsize : frameFormat.size r.buffer with
      | none =>
          have hcall : r.call .nextFrame = (r, []) := by rw [call, reads.none hsize]
          rw [hcall] at hcut ⊢
          simpa [fed] using h later fs rest hcut
      | some n =>
          obtain ⟨r', hnext, hbuf⟩ := reads.some hsize
          have hcall : r.call .nextFrame = (r', [r.buffer.take n]) := by rw [call, hnext]
          rw [hcall, hbuf] at hcut
          rw [hcall]
          have := h later _ rest (.frame_append hsize hcut)
          simpa [fed] using this

theorem ahead_run (calls : List Call) :
    Ahead calls (Mealy.run call init calls).2 (Mealy.run call init calls).1 := by
  refine Mealy.run_induction ?_ ?_
  · intro later fs rest hcut
    exact hcut
  · intro is i _ h
    exact ahead_step h i

/-- **Framing does not depend on segmentation.** However the bytes are fed and however
often `next_frame` is called in between, asking until there is none gives the frames the
bytes are cut into and keeps the rest. If the bytes are frames, it gives those frames. -/
theorem frames_independent_of_segmentation (calls : List Call) :
    let r := Mealy.run call init calls
    let d := r.1.readAll
    Cuts frameFormat (fed calls) (r.2 ++ d.1) d.2.buffer ∧ d.2.nextFrame = none
      ∧ ∀ frames : List Frame, fed calls = (frames.map Frame.bytes).flatten →
        r.2 ++ d.1 = frames.map Frame.bytes ∧ d.2.buffer = [] := by
  intro r d
  have hd : Cuts frameFormat r.1.buffer d.1 d.2.buffer := reads.drain _ _ (Nat.le_refl _)
  have hcut : Cuts frameFormat (fed calls) (r.2 ++ d.1) d.2.buffer := by
    have := ahead_run calls [] d.1 d.2.buffer (by rw [List.append_nil]; exact hd)
    rwa [List.append_nil] at this
  refine ⟨hcut, reads.none hd.rest, ?_⟩
  intro frames hframes
  have hwhole : ∀ f ∈ frames.map Frame.bytes, Whole frameFormat f := by
    intro f hf
    obtain ⟨g, _, rfl⟩ := List.mem_map.mp hf
    exact g.whole
  rw [hframes] at hcut
  exact hcut.unique (cuts_flatten hwhole)

end FrameReader

end HftLob.Wire
