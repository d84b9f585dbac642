import Gemios.HeapSizes
import Gemios.Wav

/-!
# The walk over the chunks and what it leads to

`usb_audio_play_wav` whole: the checks, the chunk loop, the analysis and the three ways to play.  A
log keeps what is read of the file, what is divided by and what is written to the allocated buffer,
which is a block of the heap.
An offset is a `size_t`, so an address behind 2^32 starts at the buffer's beginning again.
-/

namespace Gemios.Wav

/-- What can go wrong in memory or in the divider. -/
inductive Access
  | read (p : Nat)
  | divide (d : Nat)
  | write (p size : Nat)
deriving DecidableEq, Repr

def Access.Ok (len : Nat) : Access → Prop
  | .read p => p < len
  | .divide d => d ≠ 0
  | .write p size => p < size

instance (len : Nat) : (a : Access) → Decidable (a.Ok len)
  | .read p => inferInstanceAs (Decidable (p < len))
  | .divide d => inferInstanceAs (Decidable (d ≠ 0))
  | .write p size => inferInstanceAs (Decidable (p < size))

/-- The bytes from `offset` on. -/
def window (mem : Buf) (offset : Nat) : Buf := fun k => mem (u32 (offset + k))

def readWindow (offset k n : Nat) : List Access := (List.range n).map fun i => .read (u32 (offset + (k + i)))

def tagAt (mem : Buf) (i : Nat) : List UInt8 := [mem i, mem (i + 1), mem (i + 2), mem (i + 3)]

def riffTag : List UInt8 := [0x52, 0x49, 0x46, 0x46]
def waveTag : List UInt8 := [0x57, 0x41, 0x56, 0x45]
def fmtTag : List UInt8 := [0x66, 0x6D, 0x74, 0x20]
def dataTag : List UInt8 := [0x64, 0x61, 0x74, 0x61]

/-! ### The chunk loop -/

def chunkSz (mem : Buf) (offset : Nat) : Nat := le32 (window mem offset) 4

def IsFmt (mem : Buf) (offset : Nat) : Prop := tagAt (window mem offset) 0 = fmtTag ∧ 16 ≤ chunkSz mem offset

def IsData (mem : Buf) (offset : Nat) : Prop := tagAt (window mem offset) 0 = dataTag

instance (mem : Buf) (offset : Nat) : Decidable (IsFmt mem offset) := inferInstanceAs (Decidable (_ ∧ _))

instance (mem : Buf) (offset : Nat) : Decidable (IsData mem offset) := inferInstanceAs (Decidable (_ = _))

def formatAt (mem : Buf) (offset : Nat) : Format :=
  let b := window mem (u32 (offset + 8))
  ⟨le16 b 0, le16 b 2, le32 b 4, le16 b 14⟩

/-- The chunk behind the one at `offset`, and its pad byte. -/
def nextChunk (mem : Buf) (offset : Nat) : Nat :=
  u32 (u32 (u32 (offset + 8) + chunkSz mem offset) + chunkSz mem offset % 2)

/-- The format after the chunk at `offset`. -/
def formatStep (mem : Buf) (offset : Nat) (f : Format) : Format :=
  if IsFmt mem offset then formatAt mem offset else f

/-- `pcm_data` and `pcm_len`. -/
def dataAt (mem : Buf) (len offset : Nat) : Nat × Nat :=
  let pcm := u32 (offset + 8)
  (pcm, if chunkSz mem offset ≤ len - pcm then chunkSz mem offset else len - pcm)

/-- What a turn reads: the header, and the fields of a format chunk. -/
def chunkReads (mem : Buf) (offset : Nat) : List Access :=
  readWindow offset 0 8 ++
    if IsFmt mem offset then readWindow (u32 (offset + 8)) 0 8 ++ readWindow (u32 (offset + 8)) 14 2 else []

/-- The loop, as far as `turns` turns lead: the format, and the data if a data chunk was found. -/
def chunkLoop (mem : Buf) (len : Nat) : Nat → Nat → Format → Option (Format × Option (Nat × Nat)) × List Access
  | 0, _, _ => (none, [])
  | turns + 1, offset, f =>
    if u32 (offset + 8) ≤ len then
      if IsData mem offset then (some (f, some (dataAt mem len offset)), chunkReads mem offset)
      else
        let rest := chunkLoop mem len turns (nextChunk mem offset) (formatStep mem offset f)
        (rest.1, chunkReads mem offset ++ rest.2)
    else (some (f, none), [])

/-! ### The analysis and the conversion -/

def sampleReads (p bits : Nat) : List Access := (List.range (bits / 8)).map fun k => .read (p + k)

/-- `usb_audio_analyze_pcm`: every sample of every frame. -/
def analyzePcm (pcm pcmLen : Nat) (f : Format) : List Access :=
  if f.frameSz > 0 then
    let numFrames := pcmLen / f.frameSz
    let totalSamples := u32 (numFrames * f.channels)
    .divide f.frameSz ::
      if numFrames = 0 then []
      else
        ((List.range numFrames).flatMap fun i => (List.range f.channels).flatMap fun ch =>
          sampleReads (pcm + i * f.frameSz + ch * (f.bitsPerSample / 8)) f.bitsPerSample) ++
        (if totalSamples > 0 then [.divide totalSamples] else []) ++
        [.divide (if f.sampleRate ≠ 0 then f.sampleRate else 48000)]
  else []

def frameReads (pcm : Nat) (f : Format) (idx : Nat) : List Access :=
  let p := pcm + idx * f.frameSz
  sampleReads p f.bitsPerSample ++
    if f.channels ≥ 2 then sampleReads (p + f.bitsPerSample / 8) f.bitsPerSample else []

/-- The writes of the two samples of an output frame to a block of `room` bytes. -/
def frameWrites (i room : Nat) : List Access := (List.range 4).map fun k => .write (u32 (i * 4 + k)) room

/-- The room in the block that `kmalloc` gives for a request; `none`: it returns NULL. -/
def blockFor (k : Heap) (size : Nat) : Option Nat :=
  (kmalloc k size).bind fun r => if r.1 = 0 then none else some (blockSize r.2.mem r.1)

inductive Played
  | refused
  | nothing
  | passed (bytes : List UInt8)
deriving DecidableEq, Repr

def playMono (k : Heap) (mem : Buf) (pcm pcmLen : Nat) : Played × List Access :=
  let numFrames := pcmLen / 2
  let outBytes := u32 (numFrames * 2 * 2)
  if numFrames = 0 then (.nothing, [])
  else
    match blockFor k outBytes with
    | some room =>
      (.passed (monoBytes mem pcm pcmLen),
        (List.range numFrames).flatMap fun i => sampleReads (pcm + 2 * i) 16 ++ frameWrites i room)
    | none => (.refused, [])

def playGeneral (k : Heap) (mem : Buf) (pcm pcmLen : Nat) (f : Format) : Played × List Access :=
  let numIn := pcmLen / f.frameSz
  let numOut := numOutFrames numIn f.sampleRate
  let outBytes := u32 (numOut * 2 * 2)
  if numIn = 0 then (.nothing, [.divide f.frameSz])
  else
    let divisions := .divide f.frameSz :: if f.sampleRate = 48000 then [] else [.divide f.sampleRate]
    match blockFor k outBytes with
    | some room =>
      (.passed (generalBytes mem pcm pcmLen f),
        divisions ++ (List.range numOut).flatMap fun i =>
          frameReads pcm f (idx0 i f.sampleRate) ++ frameReads pcm f (idx1 numIn i f.sampleRate) ++
            frameWrites i room)
    | none => (.refused, divisions)

def Format.Direct (f : Format) (channels : Nat) : Prop :=
  f.sampleRate = 48000 ∧ f.channels = channels ∧ f.bitsPerSample = 16

instance (f : Format) (channels : Nat) : Decidable (f.Direct channels) := inferInstanceAs (Decidable (_ ∧ _ ∧ _))

def Format.Supported (f : Format) : Prop :=
  f.audioFormat = 1 ∧ f.channels ≠ 0 ∧ (f.bitsPerSample = 8 ∨ f.bitsPerSample = 16 ∨ f.bitsPerSample = 24)

instance (f : Format) : Decidable f.Supported := inferInstanceAs (Decidable (_ ∧ _ ∧ _))

def playData (k : Heap) (mem : Buf) (pcm pcmLen : Nat) (f : Format) : Played × List Access :=
  if f.Direct 2 then
    (.passed (stereoBytes mem pcm pcmLen), (List.range pcmLen).map fun i => .read (pcm + i))
  else if f.Direct 1 then playMono k mem pcm pcmLen
  else playGeneral k mem pcm pcmLen f

/-- The checks behind the chunk loop, the analysis, and one of the three paths. -/
def playChunks (k : Heap) (mem : Buf) (f : Format) (data : Option (Nat × Nat)) : Played × List Access :=
  match data with
  | none => (.refused, [])
  | some (pcm, pcmLen) =>
    if pcmLen = 0 then (.refused, [])
    else if f.Supported then
      let played := playData k mem pcm pcmLen f
      (played.1, analyzePcm pcm pcmLen f ++ played.2)
    else (.refused, [])

def IsWave (mem : Buf) : Prop := tagAt mem 0 = riffTag ∧ tagAt mem 8 = waveTag

instance (mem : Buf) : Decidable (IsWave mem) := inferInstanceAs (Decidable (_ ∧ _))

/-- `usb_audio_play_wav` for a buffer of `len` bytes (`none`: the loop goes on after `turns` turns).
    `k` is the heap, `device` says if there is an audio device. -/
def usbAudioPlayWav (k : Heap) (device : Bool) (mem : Buf) (len turns : Nat) :
    Option Played × List Access :=
  if len < 44 then (some .refused, [])
  else
    let header := ((List.range 4).map fun i => Access.read i) ++ (List.range 4).map fun i => .read (8 + i)
    if IsWave mem then
      if device then
        let chunks := chunkLoop mem len turns 12 ⟨0, 0, 0, 0⟩
        match chunks.1 with
        | none => (none, header ++ chunks.2)
        | some (f, data) =>
          let played := playChunks k mem f data
          (some played.1, header ++ chunks.2 ++ played.2)
      else (some .refused, header)
    else (some .refused, header)

end Gemios.Wav
