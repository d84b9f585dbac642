import Gemios.WavPlay
import Gemios.WavResample

/-!
# Which files are played safely

The chunk loop trusts the sizes in the file in three places: an offset may wrap, the sixteen bytes of
a format chunk may be missing, and the sample rate divides.  Everything behind the loop stays inside,
as long as the size of the output buffer does not wrap, nor when `kmalloc` rounds it up.
-/

namespace Gemios.Wav

/-- Some number of turns ends the chunk loop, and every access of the run is a good one. -/
def PlaysSafely (k : Heap) (device : Bool) (mem : Buf) (len : Nat) : Prop :=
  ∃ turns, (usbAudioPlayWav k device mem len turns).1 ≠ none ∧
    ∀ a ∈ (usbAudioPlayWav k device mem len turns).2, a.Ok len

/-! ### What a file has to be -/

/-- From `offset` on the chunks are whole as far as they are read, and they end: with the data, or
    where no header is left.  A format chunk changes the format. -/
inductive WholeChunks (mem : Buf) (len : Nat) : Nat → Format → Format → Option (Nat × Nat) → Prop
  | finished {offset : Nat} {f : Format} (hend : len < u32 (offset + 8)) :
      WholeChunks mem len offset f f none
  | data {offset : Nat} {f : Format} (hheader : offset + 8 ≤ len) (hdata : IsData mem offset) :
      WholeChunks mem len offset f f (some (dataAt mem len offset))
  | chunk {offset : Nat} {f f' : Format} {d : Option (Nat × Nat)} (hheader : offset + 8 ≤ len)
      (hdata : ¬IsData mem offset) (hfmt : IsFmt mem offset → offset + 24 ≤ len)
      (hrest : WholeChunks mem len (nextChunk mem offset) (formatStep mem offset f) f' d) :
      WholeChunks mem len offset f f' d

/-- The sample rate is not zero, and the size of the output, rounded up to 8 bytes, is a word, or the
    heap has no block for it. -/
structure Convertible (k : Heap) (f : Format) (pcmLen : Nat) : Prop where
  rate : f.sampleRate ≠ 0
  fits : numOutFrames (pcmLen / f.frameSz) f.sampleRate ≤ 1073741822 ∨
    blockFor k (u32 (numOutFrames (pcmLen / f.frameSz) f.sampleRate * 2 * 2)) = none

/-- If a frame of the data is to be converted, that works. -/
def ConversionSafe (k : Heap) (f : Format) (data : Option (Nat × Nat)) : Prop :=
  ∀ pcm pcmLen, data = some (pcm, pcmLen) → f.Supported → ¬f.Direct 2 → ¬f.Direct 1 →
    pcmLen / f.frameSz ≠ 0 → Convertible k f pcmLen

/-- A file that `usb_audio_play_wav` gets as far as the chunks with. -/
def WellFormed (k : Heap) (device : Bool) (mem : Buf) (len : Nat) : Prop :=
  44 ≤ len → IsWave mem → device = true →
    ∃ f data, WholeChunks mem len 12 ⟨0, 0, 0, 0⟩ f data ∧ ConversionSafe k f data

/-! ### Logs -/

section Logs

variable {len : Nat}

theorem ok_append {l l' : List Access} :
    (∀ a ∈ l ++ l', a.Ok len) ↔ (∀ a ∈ l, a.Ok len) ∧ ∀ a ∈ l', a.Ok len := List.forall_mem_append

theorem ok_flatMap {α : Type} {xs : List α} {g : α → List Access} :
    (∀ a ∈ xs.flatMap g, a.Ok len) ↔ ∀ x ∈ xs, ∀ a ∈ g x, a.Ok len := by
  constructor
  · intro h x hx a ha
    exact h a (List.mem_flatMap.mpr ⟨x, hx, ha⟩)
  · intro h a ha
    obtain ⟨x, hx, hax⟩ := List.mem_flatMap.mp ha
    exact h x hx a hax

theorem ok_map {α : Type} {xs : List α} {g : α → Access} :
    (∀ a ∈ xs.map g, a.Ok len) ↔ ∀ x ∈ xs, (g x).Ok len := List.forall_mem_map

theorem readWindow_ok {offset k n : Nat} :
    (∀ a ∈ readWindow offset k n, a.Ok len) ↔ ∀ i < n, u32 (offset + (k + i)) < len := by
  rw [readWindow, ok_map]
  simp only [List.mem_range, Access.Ok]

theorem sampleReads_ok {p bits : Nat} (h : p + bits / 8 ≤ len) : ∀ a ∈ sampleReads p bits, a.Ok len := by
  rw [sampleReads, ok_map]
  intro k hk
  have hlt : k < bits / 8 := List.mem_range.mp hk
  exact Nat.lt_of_lt_of_le (Nat.add_lt_add_left hlt p) h

end Logs

/-! ### The chunk loop -/

section Chunks

variable {mem : Buf} {len : Nat}

theorem u32_le {n : Nat} (h : n ≤ len) : u32 n ≤ len := (Nat.mod_le n 4294967296).trans h

theorem chunkReads_ok {offset : Nat} (hlen : len ≤ 2147483648) (hword : offset < 4294967296)
    (hcheck : u32 (offset + 8) ≤ len) :
    (∀ a ∈ chunkReads mem offset, a.Ok len) ↔
      offset + 8 ≤ len ∧ (IsFmt mem offset → offset + 24 ≤ len) := by
  rw [chunkReads, ok_append, readWindow_ok]
  constructor
  · rintro ⟨hheader, hfields⟩
    have hfirst := hheader 0 (by decide)
    have hinside : offset + 8 ≤ len := by
      unfold u32 at hfirst hcheck
      omega
    refine ⟨hinside, fun hfmt => ?_⟩
    rw [if_pos hfmt, ok_append, readWindow_ok, readWindow_ok] at hfields
    have hlast := hfields.2 1 (by decide)
    unfold u32 at hlast
    omega
  · rintro ⟨hheader, hfmt⟩
    refine ⟨fun i hi => ?_, ?_⟩
    · rw [u32_of_lt (by omega)]
      omega
    · split
      · rename_i his
        have hwhole := hfmt his
        rw [ok_append, readWindow_ok, readWindow_ok, u32_of_lt (show offset + 8 < 4294967296 by omega)]
        refine ⟨fun i hi => ?_, fun i hi => ?_⟩
        · rw [u32_of_lt (by omega)]
          omega
        · rw [u32_of_lt (by omega)]
          omega
      · exact fun a ha => absurd ha List.not_mem_nil

theorem nextChunk_lt (offset : Nat) : nextChunk mem offset < 4294967296 := Nat.mod_lt _ (by decide)

theorem not_isFmt_of_isData {offset : Nat} (h : IsData mem offset) : ¬IsFmt mem offset := by
  rintro ⟨hfmt, -⟩
  rw [IsData, hfmt] at h
  exact absurd h (by decide)

theorem chunkLoop_of_whole {offset : Nat} {f f' : Format} {d : Option (Nat × Nat)}
    (hlen : len ≤ 2147483648) (hword : offset < 4294967296) (h : WholeChunks mem len offset f f' d) :
    ∃ turns, (chunkLoop mem len turns offset f).1 = some (f', d) ∧
      ∀ a ∈ (chunkLoop mem len turns offset f).2, a.Ok len := by
  induction h with
  | finished hend =>
    refine ⟨1, ?_⟩
    rw [chunkLoop, if_neg (Nat.not_le.mpr hend)]
    exact ⟨rfl, fun a ha => absurd ha List.not_mem_nil⟩
  | data hheader hdata =>
    have hcheck := u32_le hheader
    refine ⟨1, ?_⟩
    rw [chunkLoop, if_pos hcheck, if_pos hdata]
    exact ⟨rfl, (chunkReads_ok hlen hword hcheck).mpr
      ⟨hheader, fun hfmt => absurd hfmt (not_isFmt_of_isData hdata)⟩⟩
  | chunk hheader hdata hfmt hrest ih =>
    have hcheck := u32_le hheader
    obtain ⟨turns, hresult, hok⟩ := ih (nextChunk_lt _)
    refine ⟨turns + 1, ?_⟩
    rw [chunkLoop, if_pos hcheck, if_neg hdata]
    exact ⟨hresult, ok_append.mpr ⟨(chunkReads_ok hlen hword hcheck).mpr ⟨hheader, hfmt⟩, hok⟩⟩

theorem whole_of_chunkLoop {turns offset : Nat} {f f' : Format} {d : Option (Nat × Nat)}
    (hlen : len ≤ 2147483648) (hword : offset < 4294967296)
    (hresult : (chunkLoop mem len turns offset f).1 = some (f', d))
    (hok : ∀ a ∈ (chunkLoop mem len turns offset f).2, a.Ok len) :
    WholeChunks mem len offset f f' d := by
  induction turns generalizing offset f with
  | zero => cases hresult
  | succ turns ih =>
    rw [chunkLoop] at hresult hok
    by_cases hcheck : u32 (offset + 8) ≤ len
    · rw [if_pos hcheck] at hresult hok
      by_cases hdata : IsData mem offset
      · rw [if_pos hdata] at hresult hok
        cases hresult
        exact .data ((chunkReads_ok hlen hword hcheck).mp hok).1 hdata
      · rw [if_neg hdata] at hresult hok
        obtain ⟨hreads, hrest⟩ := ok_append.mp hok
        obtain ⟨hheader, hfmt⟩ := (chunkReads_ok hlen hword hcheck).mp hreads
        exact .chunk hheader hdata hfmt (ih (nextChunk_lt offset) hresult hrest)
    · rw [if_neg hcheck] at hresult
      cases hresult
      exact .finished (Nat.not_le.mp hcheck)

/-- What the fields of a format chunk are bounded by. -/
structure Format.InWords (f : Format) : Prop where
  channels : f.channels < 65536
  sampleRate : f.sampleRate < 4294967296

theorem WholeChunks.inWords {offset : Nat} {f f' : Format} {d : Option (Nat × Nat)}
    (h : WholeChunks mem len offset f f' d) (hf : f.InWords) : f'.InWords := by
  induction h with
  | finished hend => exact hf
  | data hheader hdata => exact hf
  | @chunk offset f f' d hheader hdata hfmt hrest ih =>
    refine ih ?_
    unfold formatStep
    split
    · exact ⟨le16_lt _ _, le32_lt _ _⟩
    · exact hf

theorem WholeChunks.data_le {offset : Nat} {f f' : Format} {pcm pcmLen : Nat} (hlen : len ≤ 2147483648)
    (h : WholeChunks mem len offset f f' (some (pcm, pcmLen))) :
    8 ≤ pcm ∧ pcm + pcmLen ≤ len := by
  generalize hd : some (pcm, pcmLen) = d at h
  induction h with
  | finished hend => cases hd
  | @data offset f hheader hdata =>
    cases hd
    rw [u32_of_lt (show offset + 8 < 4294967296 by omega)]
    refine ⟨Nat.le_add_left 8 offset, ?_⟩
    split <;> omega
  | chunk hheader hdata hfmt hrest ih => exact ih hd

end Chunks

/-! ### Behind the loop -/

section Conversion

variable {f : Format} {pcm pcmLen len : Nat}

theorem frameSz_eq (hf : f.InWords) (hs : f.Supported) :
    f.frameSz = f.channels * (f.bitsPerSample / 8) ∧ 0 < f.frameSz := by
  obtain ⟨-, hchannels, hbits⟩ := hs
  have hlt := hf.channels
  have heq : f.frameSz = f.channels * (f.bitsPerSample / 8) := by
    rw [Format.frameSz, u32_of_lt]
    rcases hbits with h | h | h <;> rw [h] <;> omega
  refine ⟨heq, ?_⟩
  rw [heq]
  rcases hbits with h | h | h <;> rw [h] <;> omega

theorem sample_le (hf : f.InWords) (hs : f.Supported) (hdata : pcm + pcmLen ≤ len) {i ch : Nat}
    (hi : i < pcmLen / f.frameSz) (hch : ch < f.channels) :
    pcm + i * f.frameSz + ch * (f.bitsPerSample / 8) + f.bitsPerSample / 8 ≤ len := by
  obtain ⟨heq, hpos⟩ := frameSz_eq hf hs
  have hframe : (i + 1) * f.frameSz ≤ pcmLen :=
    (Nat.mul_le_mul_right _ hi).trans (Nat.div_mul_le_self pcmLen f.frameSz)
  have hsample : (ch + 1) * (f.bitsPerSample / 8) ≤ f.frameSz := by
    rw [heq]
    exact Nat.mul_le_mul_right _ hch
  rw [Nat.add_one_mul] at hframe hsample
  omega

theorem frameReads_ok (hf : f.InWords) (hs : f.Supported) (hdata : pcm + pcmLen ≤ len) {i : Nat}
    (hi : i < pcmLen / f.frameSz) : ∀ a ∈ frameReads pcm f i, a.Ok len := by
  have hfirst := sample_le hf hs hdata hi (Nat.pos_of_ne_zero hs.2.1)
  rw [Nat.zero_mul, Nat.add_zero] at hfirst
  rw [frameReads, ok_append]
  refine ⟨sampleReads_ok hfirst, ?_⟩
  split
  · rename_i htwo
    have hsecond := sample_le hf hs hdata hi htwo
    rw [Nat.one_mul] at hsecond
    exact sampleReads_ok hsecond
  · exact fun a ha => absurd ha List.not_mem_nil

theorem analyzePcm_ok (hf : f.InWords) (hs : f.Supported) (hdata : pcm + pcmLen ≤ len) :
    ∀ a ∈ analyzePcm pcm pcmLen f, a.Ok len := by
  have hpos := (frameSz_eq hf hs).2
  unfold analyzePcm
  rw [if_pos hpos]
  dsimp only
  refine List.forall_mem_cons.mpr ⟨Nat.ne_of_gt hpos, ?_⟩
  split
  · exact fun a ha => absurd ha List.not_mem_nil
  · rw [ok_append, ok_append, ok_flatMap]
    refine ⟨⟨fun i hi => ?_, ?_⟩, ?_⟩
    · rw [ok_flatMap]
      intro ch hch
      exact sampleReads_ok (sample_le hf hs hdata (List.mem_range.mp hi) (List.mem_range.mp hch))
    · split
      · rename_i htotal
        exact List.forall_mem_singleton.mpr (Nat.ne_of_gt htotal)
      · exact fun a ha => absurd ha List.not_mem_nil
    · refine List.forall_mem_singleton.mpr ?_
      split
      · assumption
      · exact Nat.succ_ne_zero _

theorem blockFor_room_iff {k : Heap} {a e : Nat} {bs : List Block} (h : SoundHeap k a e bs) {t room : Nat}
    (hroom : blockFor k (u32 t) = some room) : room < 4294967296 ∧ (t ≤ room ↔ t ≤ 4294967288) := by
  obtain ⟨⟨p, k'⟩, hk, hblock⟩ := Option.bind_eq_some_iff.mp hroom
  dsimp only at hblock
  by_cases hp : p = 0
  · rw [if_pos hp] at hblock
    cases hblock
  · rw [if_neg hp] at hblock
    obtain ⟨c, bs', hserved⟩ := kmalloc_served h hk hp
    have hsize : room = c.size :=
      (Option.some.inj hblock).symm.trans (hserved.blockSize_eq fun i _ _ => rfl)
    have hbounds := hserved.bounds
    rw [hsize]
    exact ⟨by omega, hserved.room_iff⟩

theorem frameWrites_ok (len : Nat) {numOut room : Nat} (hroom : room < 4294967296) :
    (∀ i < numOut, ∀ a ∈ frameWrites i room, a.Ok len) ↔ numOut * 2 * 2 ≤ room := by
  constructor
  · intro h
    by_contra hbig
    -- The last byte of a frame that ends behind the block, or at the end of the address space.
    have hlast := h (min numOut 1073741824 - 1) (by omega)
      (.write (u32 ((min numOut 1073741824 - 1) * 4 + 3)) room) (List.mem_map.mpr ⟨3, by decide, rfl⟩)
    unfold Access.Ok at hlast
    rw [u32_of_lt (by omega)] at hlast
    omega
  · intro hle i hi
    rw [frameWrites, ok_map]
    intro k hk
    have hlt : k < 4 := List.mem_range.mp hk
    unfold Access.Ok
    rw [u32_of_lt (by omega)]
    omega

theorem playMono_ok {k : Heap} {a e : Nat} {bs : List Block} (hheap : SoundHeap k a e bs) {mem : Buf}
    (hlen : len ≤ 2147483648) (hpcm : 8 ≤ pcm) (hdata : pcm + pcmLen ≤ len) :
    ∀ a ∈ (playMono k mem pcm pcmLen).2, a.Ok len := by
  unfold playMono
  dsimp only
  split
  · exact fun a ha => absurd ha List.not_mem_nil
  · split
    · rename_i room hblock
      obtain ⟨hword, hfits⟩ := blockFor_room_iff hheap hblock
      rw [ok_flatMap]
      intro i hi
      have hlt : i < pcmLen / 2 := List.mem_range.mp hi
      rw [ok_append]
      refine ⟨sampleReads_ok (by omega), ?_⟩
      -- The header takes room, so the size of the buffer does not wrap.
      exact (frameWrites_ok len hword).mpr (hfits.mpr (by omega)) i hlt
    · exact fun a ha => absurd ha List.not_mem_nil

theorem playGeneral_ok {k : Heap} {a e : Nat} {bs : List Block} (hheap : SoundHeap k a e bs) {mem : Buf}
    (hlen : len ≤ 2147483648) (hf : f.InWords) (hs : f.Supported) (hdata : pcm + pcmLen ≤ len) :
    (∀ a ∈ (playGeneral k mem pcm pcmLen f).2, a.Ok len) ↔
      (pcmLen / f.frameSz ≠ 0 → Convertible k f pcmLen) := by
  have hpos := (frameSz_eq hf hs).2
  have hin : pcmLen / f.frameSz < 4294967296 :=
    Nat.lt_of_le_of_lt (Nat.div_le_self _ _) (by omega)
  have hdivide : Access.Ok len (.divide f.frameSz) := Nat.ne_of_gt hpos
  unfold playGeneral
  dsimp only
  by_cases hzero : pcmLen / f.frameSz = 0
  · rw [if_pos hzero]
    exact iff_of_true (List.forall_mem_singleton.mpr hdivide) fun hne => absurd hzero hne
  · have hrate : (∀ a ∈ Access.divide f.frameSz ::
        (if f.sampleRate = 48000 then [] else [.divide f.sampleRate]), a.Ok len) ↔ f.sampleRate ≠ 0 := by
      rw [List.forall_mem_cons, and_iff_right hdivide]
      split
      · rename_i hrate
        exact iff_of_true (fun a ha => absurd ha List.not_mem_nil) (by rw [hrate]; decide)
      · exact List.forall_mem_singleton
    rw [if_neg hzero, forall_prop_of_true hzero]
    cases hblock : blockFor k (u32 (numOutFrames (pcmLen / f.frameSz) f.sampleRate * 2 * 2)) with
    | some room =>
      obtain ⟨hword, hroom⟩ := blockFor_room_iff hheap hblock
      dsimp only
      rw [ok_append, hrate, ok_flatMap]
      constructor
      · rintro ⟨hne, hframes⟩
        have hfits := hroom.mp ((frameWrites_ok len hword).mp fun i hi =>
          (ok_append.mp (hframes i (List.mem_range.mpr hi))).2)
        exact ⟨hne, .inl (by omega)⟩
      · rintro ⟨hne, hfits⟩
        have hsmall := hfits.resolve_right (by rw [hblock]; nofun)
        refine ⟨hne, fun i hi => ?_⟩
        have hlt := List.mem_range.mp hi
        obtain ⟨hnum, hinter⟩ := resampling_exact hin (Nat.pos_of_ne_zero hne) hf.sampleRate
        have hi' : i < (pcmLen / f.frameSz * 48000 + f.sampleRate / 2) / f.sampleRate :=
          Nat.lt_of_lt_of_le hlt (hnum ▸ Nat.mod_le _ _)
        rw [ok_append, ok_append]
        exact ⟨⟨frameReads_ok hf hs hdata (hinter i hi').idx0_lt,
          frameReads_ok hf hs hdata (hinter i hi').idx1_lt⟩,
          (frameWrites_ok len hword).mpr (hroom.mpr (by omega)) i hlt⟩
    | none =>
      dsimp only
      rw [hrate]
      exact ⟨fun hne => ⟨hne, .inr hblock⟩, fun h => h.rate⟩

theorem playChunks_ok {k : Heap} {a e : Nat} {bs : List Block} (hheap : SoundHeap k a e bs) {mem : Buf}
    {data : Option (Nat × Nat)} (hlen : len ≤ 2147483648) (hf : f.InWords)
    (hdata : ∀ pcm pcmLen, data = some (pcm, pcmLen) → 8 ≤ pcm ∧ pcm + pcmLen ≤ len) :
    (∀ a ∈ (playChunks k mem f data).2, a.Ok len) ↔ ConversionSafe k f data := by
  have hnothing : ∀ a ∈ ([] : List Access), a.Ok len := fun a ha => absurd ha List.not_mem_nil
  cases data with
  | none => exact iff_of_true hnothing fun _ _ h => by cases h
  | some d =>
    obtain ⟨pcm, pcmLen⟩ := d
    obtain ⟨hpcm, hle⟩ := hdata pcm pcmLen rfl
    unfold playChunks
    dsimp only
    by_cases hzero : pcmLen = 0
    · rw [if_pos hzero]
      refine iff_of_true hnothing fun _ _ h _ _ _ hframes => absurd ?_ hframes
      cases h
      rw [hzero, Nat.zero_div]
    rw [if_neg hzero]
    by_cases hs : f.Supported
    · rw [if_pos hs, ok_append, and_iff_right (analyzePcm_ok hf hs hle)]
      unfold playData
      by_cases htwo : f.Direct 2
      · rw [if_pos htwo, ok_map]
        refine iff_of_true (fun i hi => ?_) fun _ _ _ _ h => absurd htwo h
        exact Nat.lt_of_lt_of_le (Nat.add_lt_add_left (List.mem_range.mp hi) pcm) hle
      rw [if_neg htwo]
      by_cases hone : f.Direct 1
      · rw [if_pos hone]
        exact iff_of_true (playMono_ok hheap hlen hpcm hle) fun _ _ _ _ _ h => absurd hone h
      rw [if_neg hone, playGeneral_ok hheap hlen hf hs hle]
      constructor
      · intro h _ _ heq _ _ _ hframes
        cases heq
        exact h hframes
      · intro h
        exact h pcm pcmLen rfl hs htwo hone
    · rw [if_neg hs]
      exact iff_of_true hnothing fun _ _ _ h => absurd h hs

end Conversion

/-! ### Whole runs -/

/-- **Exactly the well-formed files are played safely**, on every heap that `kmalloc` and `kfree` keep. -/
theorem playsSafely_iff {k : Heap} {a e : Nat} {bs : List Block} (hheap : SoundHeap k a e bs) (device : Bool)
    (mem : Buf) {len : Nat} (hlen : len ≤ 2147483648) :
    PlaysSafely k device mem len ↔ WellFormed k device mem len := by
  unfold PlaysSafely WellFormed usbAudioPlayWav
  by_cases hshort : len < 44
  · simp only [if_pos hshort]
    exact iff_of_true ⟨0, nofun, nofun⟩ fun h => absurd h (Nat.not_le.mpr hshort)
  have hheader : ∀ a ∈ ((List.range 4).map fun i => Access.read i) ++
      (List.range 4).map fun i => Access.read (8 + i), a.Ok len := by
    rw [ok_append, ok_map, ok_map]
    refine ⟨fun i hi => ?_, fun i hi => ?_⟩ <;>
    · have hlt := List.mem_range.mp hi
      unfold Access.Ok
      omega
  simp only [if_neg hshort]
  rw [forall_prop_of_true (Nat.not_lt.mp hshort)]
  by_cases hwave : IsWave mem
  · simp only [if_pos hwave]
    rw [forall_prop_of_true hwave]
    cases device with
    | false => exact iff_of_true ⟨0, nofun, hheader⟩ nofun
    | true =>
      rw [forall_prop_of_true rfl]
      have hstart : Format.InWords ⟨0, 0, 0, 0⟩ := ⟨by decide, by decide⟩
      constructor
      · rintro ⟨turns, hends, hok⟩
        simp only [if_true] at hends hok
        cases hresult : (chunkLoop mem len turns 12 ⟨0, 0, 0, 0⟩).1 with
        | none =>
          rw [hresult] at hends
          exact absurd rfl hends
        | some r =>
          obtain ⟨f, data⟩ := r
          rw [hresult] at hok
          obtain ⟨hloop, hplay⟩ := ok_append.mp hok
          have hwhole := whole_of_chunkLoop hlen (by decide) hresult (ok_append.mp hloop).2
          refine ⟨f, data, hwhole, (playChunks_ok hheap hlen (hwhole.inWords hstart) ?_).mp hplay⟩
          rintro pcm pcmLen rfl
          exact hwhole.data_le hlen
      · rintro ⟨f, data, hwhole, hsafe⟩
        obtain ⟨turns, hresult, hloop⟩ := chunkLoop_of_whole hlen (by decide) hwhole
        refine ⟨turns, ?_⟩
        simp only [if_true, hresult]
        refine ⟨nofun, ok_append.mpr ⟨ok_append.mpr ⟨hheader, hloop⟩, ?_⟩⟩
        refine (playChunks_ok hheap hlen (hwhole.inWords hstart) ?_).mpr hsafe
        rintro pcm pcmLen rfl
        exact hwhole.data_le hlen
  · simp only [if_neg hwave]
    exact iff_of_true ⟨0, nofun, hheader⟩ fun h => absurd h hwave

/-- A file of 46 bytes: one channel of 16 bits, one sample, sampled at `rate` Hz. -/
def oneSample (rate : UInt8) : Buf := fun i =>
  (riffTag ++ [38, 0, 0, 0] ++ waveTag ++ fmtTag ++ [16, 0, 0, 0, 1, 0, 1, 0, rate, 0, 0, 0, 0, 0, 0, 0, 2, 0,
    16, 0] ++ dataTag ++ [2, 0, 0, 0, 7, 0]).getD i 0

theorem playsSafely_iff_oneSample : PlaysSafely freshHeap.heap true (oneSample 1) 46 ↔
    WellFormed freshHeap.heap true (oneSample 1) 46 :=
  playsSafely_iff freshHeap_sound true (oneSample 1) (by decide)

/-- A sample rate of zero: every run that ends has divided by it. -/
theorem zero_rate_divides : ¬PlaysSafely freshHeap.heap true (oneSample 0) 46 := by
  rintro ⟨turns, hends, hok⟩
  match turns with
  | 0 => exact hends (by decide +kernel)
  | 1 => exact hends (by decide +kernel)
  | turns + 2 =>
    have hmem : Access.divide 0 ∈ (usbAudioPlayWav freshHeap.heap true (oneSample 0) 46 2).2 := by
      decide +kernel
    exact hok (.divide 0) hmem rfl

end Gemios.Wav
