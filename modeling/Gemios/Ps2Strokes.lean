import Gemios.Ps2Kbd

/-!
# Modifiers and locks of a PS/2 keyboard

A keyboard whose keys are pressed and released, the bytes of scan code set 1 that it sends for that,
and when the flags of the driver say what the keyboard does.  A flag stands for two keys, and the
bytes of the Pause key contain those of others.
-/

namespace Gemios.Ps2

open Function

/-! ### Keys -/

/-- A make code.  With bit 7 set it is the break code, which is not one of the prefixes. -/
structure Code where
  val : UInt8
  small : val < 0x80
  ne_e0 : val ≠ 0x60
  ne_e1 : val ≠ 0x61
deriving DecidableEq

def Code.byte (c : Code) (pressed : Bool) : UInt8 := if pressed then c.val else c.val ||| 0x80

/-- A key by what it sends: a code, a code behind the prefix `0xE0`, or what only Pause sends. -/
inductive Key where
  | single (c : Code)
  | extended (c : Code)
  | pause
deriving DecidableEq

/-- The kinds of modifiers, each with two keys. -/
inductive Modifier where
  | shift
  | ctrl
  | alt
deriving DecidableEq

def Modifier.left : Modifier → Key
  | .shift => .single ⟨0x2A, by decide, by decide, by decide⟩
  | .ctrl => .single ⟨0x1D, by decide, by decide, by decide⟩
  | .alt => .single ⟨0x38, by decide, by decide, by decide⟩

def Modifier.right : Modifier → Key
  | .shift => .single ⟨0x36, by decide, by decide, by decide⟩
  | .ctrl => .extended ⟨0x1D, by decide, by decide, by decide⟩
  | .alt => .extended ⟨0x38, by decide, by decide, by decide⟩

inductive Lock where
  | caps
  | num
  | scroll
deriving DecidableEq

def Lock.key : Lock → Key
  | .caps => .single ⟨0x3A, by decide, by decide, by decide⟩
  | .num => .single ⟨0x45, by decide, by decide, by decide⟩
  | .scroll => .single ⟨0x46, by decide, by decide, by decide⟩

/-- Whether the lock is on when nothing was pressed. -/
def Lock.initial : Lock → Bool
  | .num => true
  | _ => false

/-! ### The keyboard -/

structure Stroke where
  key : Key
  pressed : Bool

/-- Which keys are held, and how often each was pressed. -/
structure Keyboard where
  held : Key → Bool
  presses : Key → Nat

namespace Keyboard

def idle : Keyboard := ⟨fun _ => false, fun _ => 0⟩

def stroke (kb : Keyboard) (s : Stroke) : Keyboard where
  held := update kb.held s.key s.pressed
  presses := if s.pressed then update kb.presses s.key (kb.presses s.key + 1) else kb.presses

def holds (kb : Keyboard) (m : Modifier) : Bool := kb.held m.left || kb.held m.right

end Keyboard

/-! ### Scan code set 1 -/

/-- The code of a shift key, pressed or released. -/
structure FakeShift where
  right : Bool
  pressed : Bool

def FakeShift.code (f : FakeShift) : Code :=
  if f.right then ⟨0x36, by decide, by decide, by decide⟩ else ⟨0x2A, by decide, by decide, by decide⟩

/-- What a keyboard sends around a key behind `0xE0`, so that it is the same key with Num Lock or
    Shift: codes of shift keys behind that prefix. -/
def fakeShifts (fakes : List FakeShift) : List UInt8 :=
  fakes.flatMap fun f => [0xE0, f.code.byte f.pressed]

def printScreen : Code := ⟨0x37, by decide, by decide, by decide⟩

def sysRq : Code := ⟨0x54, by decide, by decide, by decide⟩

/-- The complete sequences that a keyboard sends for a stroke. -/
inductive Sends (kb : Keyboard) : Stroke → List UInt8 → Prop
  | single (c : Code) (pressed : Bool) : Sends kb ⟨.single c, pressed⟩ [c.byte pressed]
  | extended (c : Code) (pressed : Bool) (before behind : List FakeShift) :
    Sends kb ⟨.extended c, pressed⟩
      (fakeShifts before ++ [0xE0, c.byte pressed] ++ fakeShifts behind)
  | sysRq (pressed : Bool) : Sends kb ⟨.extended printScreen, pressed⟩ [Ps2.sysRq.byte pressed]
  | pause (h : kb.holds .ctrl = false) :
    Sends kb ⟨.pause, true⟩ [0xE1, 0x1D, 0x45, 0xE1, 0x9D, 0xC5]
  | breakKey (h : kb.holds .ctrl) : Sends kb ⟨.pause, true⟩ [0xE0, 0x46, 0xE0, 0xC6]
  | pauseReleased : Sends kb ⟨.pause, false⟩ []

/-- A run of strokes, each with the bytes that are sent for it. -/
abbrev Typing := List (Stroke × List UInt8)

def Encoded : Keyboard → Typing → Prop
  | _, [] => True
  | kb, (s, bytes) :: rest => Sends kb s bytes ∧ Encoded (kb.stroke s) rest

/-! ### Driver and keyboard -/

def Flags.pressed (f : Flags) : Modifier → Bool
  | .shift => f.shiftPressed
  | .ctrl => f.ctrlPressed
  | .alt => f.altPressed

def Flags.locked (f : Flags) : Lock → Bool
  | .caps => f.capsLock
  | .num => f.numLock
  | .scroll => f.scrollLock

structure Agrees (kb : Keyboard) (f : Flags) : Prop where
  modifiers : ∀ m, f.pressed m = kb.holds m
  locks : ∀ l, f.locked l = xor l.initial (kb.presses l.key % 2 == 1)
  complete : f.extendedCode = false

/-- Before the strokes and after each of them, the flags say what the keyboard does. -/
def Follows (acked : List UInt8 → Bool) : Keyboard → Driver → Typing → Prop
  | kb, d, [] => Agrees kb d.toFlags
  | kb, d, (s, bytes) :: rest =>
    Agrees kb d.toFlags ∧ Follows acked (kb.stroke s) (d.handleBytes acked bytes) rest

/-- A stroke that the driver can follow: Pause only with Ctrl, and no release of a modifier while the
    other key of its kind is held. -/
structure Plain (kb : Keyboard) (s : Stroke) : Prop where
  pause : s.key = .pause → s.pressed → kb.holds .ctrl
  left : ∀ m : Modifier, s.key = m.left → s.pressed = false → kb.held m.right = false
  right : ∀ m : Modifier, s.key = m.right → s.pressed = false → kb.held m.left = false

def AllPlain : Keyboard → Typing → Prop
  | _, [] => True
  | kb, (s, _) :: rest => Plain kb s ∧ AllPlain (kb.stroke s) rest

/-! ### Bytes -/

theorem Code.byte_spec (c : Code) (pressed : Bool) :
    c.byte pressed ≠ 0xE0 ∧ c.byte pressed ≠ 0xE1 ∧
      (c.byte pressed &&& 0x80 != 0) = !pressed ∧ c.byte pressed &&& 0x7F = c.val := by
  have hmake : ∀ b : UInt8, b < 0x80 →
      b ≠ 0xE0 ∧ b ≠ 0xE1 ∧ (b &&& 0x80 != 0) = false ∧ b &&& 0x7F = b := forall_byte (by decide +kernel)
  have hprefix : ∀ b : UInt8, b < 0x80 → (b ||| 0x80 = 0xE0 → b = 0x60) ∧ (b ||| 0x80 = 0xE1 → b = 0x61) :=
    forall_byte (by decide +kernel)
  have hbreak : ∀ b : UInt8, b < 0x80 →
      ((b ||| 0x80) &&& 0x80 != 0) = true ∧ (b ||| 0x80) &&& 0x7F = b := forall_byte (by decide +kernel)
  cases pressed with
  | true => exact hmake c.val c.small
  | false =>
    obtain ⟨he0, he1⟩ := hprefix c.val c.small
    exact ⟨fun h => c.ne_e0 (he0 h), fun h => c.ne_e1 (he1 h), hbreak c.val c.small⟩

namespace Flags

variable {f : Flags}

theorem afterAll_append (f : Flags) (bytes bytes' : List UInt8) :
    f.afterAll (bytes ++ bytes') = (f.afterAll bytes).afterAll bytes' := List.foldl_append

theorem after_code (hf : f.extendedCode = false) (c : Code) (pressed : Bool) :
    f.after (c.byte pressed) = f.afterPlain c.val (!pressed) := by
  obtain ⟨he0, he1, hreleased, hkey⟩ := c.byte_spec pressed
  rw [after, if_neg he0, if_neg he1]
  simp only [hf, hreleased, hkey]
  rfl

theorem after_prefixed (f : Flags) (c : Code) (pressed : Bool) :
    f.afterAll [0xE0, c.byte pressed] = f.afterExtended c.val (!pressed) := by
  obtain ⟨he0, he1, hreleased, hkey⟩ := c.byte_spec pressed
  have hprefix : f.after 0xE0 = { f with extendedCode := true } := rfl
  rw [afterAll, List.foldl_cons, hprefix, List.foldl_cons, List.foldl_nil, after, if_neg he0,
    if_neg he1]
  simp only [hreleased, hkey]
  rfl

theorem after_fakeShifts (hf : f.extendedCode = false) (fakes : List FakeShift) :
    f.afterAll (fakeShifts fakes) = f := by
  have hcomplete : { f with extendedCode := false } = f := by
    rw [← hf]
  induction fakes with
  | nil => rfl
  | cons fake fakes ih =>
    have hone : f.afterAll [0xE0, fake.code.byte fake.pressed] = f := by
      rw [after_prefixed, afterExtended, FakeShift.code]
      cases fake.right with
      | true => exact hcomplete
      | false => exact hcomplete
    have hcons : fakeShifts (fake :: fakes) =
      [0xE0, fake.code.byte fake.pressed] ++ fakeShifts fakes := rfl
    rw [hcons, afterAll_append, hone, ih]

end Flags

/-! ### Strokes -/

structure Takes (f f' : Flags) (s : Stroke) : Prop where
  pressed : ∀ m : Modifier,
    f'.pressed m = if s.key = m.left ∨ s.key = m.right then s.pressed else f.pressed m
  locked : ∀ l : Lock, f'.locked l = if s.key = l.key ∧ s.pressed then !f.locked l else f.locked l
  complete : f'.extendedCode = false

theorem single_eq_iff {c : Code} {v : UInt8} {h1 : v < 0x80} {h2 : v ≠ 0x60} {h3 : v ≠ 0x61} :
    Key.single c = Key.single ⟨v, h1, h2, h3⟩ ↔ c.val = v := by
  cases c
  simp

theorem extended_eq_iff {c : Code} {v : UInt8} {h1 : v < 0x80} {h2 : v ≠ 0x60} {h3 : v ≠ 0x61} :
    Key.extended c = Key.extended ⟨v, h1, h2, h3⟩ ↔ c.val = v := by
  cases c
  simp

theorem takes_single {f : Flags} (hf : f.extendedCode = false) (c : Code) (pressed : Bool) :
    Takes f (f.afterPlain c.val (!pressed)) ⟨.single c, pressed⟩ := by
  refine ⟨fun m => ?_, fun l => ?_, ?_⟩
  · cases m <;> simp only [Modifier.left, Modifier.right, single_eq_iff, Flags.afterPlain] <;>
      grind [Flags.pressed]
  · cases l <;> simp only [Lock.key, single_eq_iff, Flags.afterPlain] <;> grind [Flags.locked]
  · unfold Flags.afterPlain
    grind

theorem takes_extended (f : Flags) (c : Code) (pressed : Bool) :
    Takes f (f.afterExtended c.val (!pressed)) ⟨.extended c, pressed⟩ := by
  refine ⟨fun m => ?_, fun l => ?_, ?_⟩
  · cases m <;> simp only [Modifier.left, Modifier.right, extended_eq_iff, Flags.afterExtended] <;>
      grind [Flags.pressed]
  · cases l <;> simp only [Lock.key, Flags.afterExtended] <;> grind [Flags.locked]
  · unfold Flags.afterExtended
    grind

/-- A key that is neither a modifier nor a lock. -/
structure Key.Ordinary (k : Key) : Prop where
  left : ∀ m : Modifier, k ≠ m.left
  right : ∀ m : Modifier, k ≠ m.right
  lock : ∀ l : Lock, k ≠ l.key

theorem pause_ordinary : Key.pause.Ordinary := by
  refine ⟨fun m => ?_, fun m => ?_, fun l => ?_⟩
  · cases m <;> simp [Modifier.left]
  · cases m <;> simp [Modifier.right]
  · cases l <;> simp [Lock.key]

theorem printScreen_ordinary : (Key.extended printScreen).Ordinary := by
  refine ⟨fun m => ?_, fun m => ?_, fun l => ?_⟩
  · cases m <;> simp [Modifier.left]
  · cases m <;> simp [Modifier.right, printScreen]
  · cases l <;> simp [Lock.key]

theorem takes_ordinary {f : Flags} (hf : f.extendedCode = false) {k : Key} (hk : k.Ordinary)
    (pressed : Bool) : Takes f f ⟨k, pressed⟩ := by
  refine ⟨fun m => ?_, fun l => ?_, hf⟩
  · rw [if_neg]
    rintro (h | h)
    · exact hk.left m h
    · exact hk.right m h
  · rw [if_neg]
    rintro ⟨h, -⟩
    exact hk.lock l h

theorem takes_of_sends {kb : Keyboard} {f : Flags} {s : Stroke} {bytes : List UInt8}
    (hf : f.extendedCode = false) (h : Sends kb s bytes) :
    (Takes f (f.afterAll bytes) s ∧ (s.key = .pause → s.pressed → kb.holds .ctrl)) ∨
      s = ⟨.pause, true⟩ ∧ kb.holds .ctrl = false ∧
        f.afterAll bytes = { f with ctrlPressed := false, numLock := !f.numLock } := by
  cases h with
  | single c pressed =>
    have hbyte : f.afterAll [c.byte pressed] = f.afterPlain c.val (!pressed) :=
      Flags.after_code hf c pressed
    rw [hbyte]
    exact .inl ⟨takes_single hf c pressed, nofun⟩
  | extended c pressed before behind =>
    have htakes := takes_extended f c pressed
    rw [Flags.afterAll_append, Flags.afterAll_append, Flags.after_fakeShifts hf,
      Flags.after_prefixed, Flags.after_fakeShifts htakes.complete]
    exact .inl ⟨htakes, nofun⟩
  | sysRq pressed =>
    have hbyte : f.afterAll [sysRq.byte pressed] = f := Flags.after_code hf sysRq pressed
    rw [hbyte]
    exact .inl ⟨takes_ordinary hf printScreen_ordinary pressed, nofun⟩
  | pause hctrl =>
    refine .inr ⟨rfl, hctrl, ?_⟩
    cases f
    subst hf
    rfl
  | breakKey hctrl =>
    have hbytes : f.afterAll [0xE0, 0x46, 0xE0, 0xC6] = f := by
      cases f
      subst hf
      rfl
    rw [hbytes]
    exact .inl ⟨takes_ordinary hf pause_ordinary true, fun _ _ => hctrl⟩
  | pauseReleased => exact .inl ⟨takes_ordinary hf pause_ordinary false, nofun⟩

/-! ### One stroke -/

theorem Modifier.left_ne_right (m : Modifier) : m.left ≠ m.right := by
  cases m <;> simp [Modifier.left, Modifier.right]

section

variable (kb : Keyboard) {s : Stroke} {m : Modifier}

theorem holds_left (h : s.key = m.left) : (kb.stroke s).holds m = (s.pressed || kb.held m.right) := by
  have hne : m.right ≠ s.key := fun heq => m.left_ne_right (h.symm.trans heq.symm)
  simp only [Keyboard.holds, Keyboard.stroke]
  rw [update_of_ne hne, ← h, update_self]

theorem holds_right (h : s.key = m.right) : (kb.stroke s).holds m = (kb.held m.left || s.pressed) := by
  have hne : m.left ≠ s.key := fun heq => m.left_ne_right (heq.trans h)
  simp only [Keyboard.holds, Keyboard.stroke]
  rw [update_of_ne hne, ← h, update_self]

theorem holds_other (h : ¬ (s.key = m.left ∨ s.key = m.right)) :
    (kb.stroke s).holds m = kb.holds m := by
  obtain ⟨hleft, hright⟩ := not_or.mp h
  simp only [Keyboard.holds, Keyboard.stroke]
  rw [update_of_ne (Ne.symm hleft), update_of_ne (Ne.symm hright)]

theorem presses_stroke (k : Key) :
    (kb.stroke s).presses k = if s.key = k ∧ s.pressed then kb.presses k + 1 else kb.presses k := by
  unfold Keyboard.stroke
  by_cases hk : s.key = k
  · subst hk
    cases s.pressed <;> simp
  · have hne : k ≠ s.key := Ne.symm hk
    cases s.pressed <;> simp [hk, update_of_ne hne]

end

theorem odd_succ (n : Nat) : ((n + 1) % 2 == 1) = !(n % 2 == 1) := by
  rcases Nat.mod_two_eq_zero_or_one n with h | h
  · simp [Nat.add_mod, h]
  · simp [Nat.add_mod, h]

theorem Takes.agrees_iff {kb : Keyboard} {f f' : Flags} {s : Stroke} (hagree : Agrees kb f)
    (ht : Takes f f' s) (hpause : s.key = .pause → s.pressed → kb.holds .ctrl) :
    Agrees (kb.stroke s) f' ↔ Plain kb s := by
  constructor
  · intro h
    refine ⟨hpause, fun m hm hup => ?_, fun m hm hup => ?_⟩
    · have hflag := h.modifiers m
      rw [ht.pressed m, if_pos (.inl hm), holds_left kb hm, hup] at hflag
      simpa using hflag.symm
    · have hflag := h.modifiers m
      rw [ht.pressed m, if_pos (.inr hm), holds_right kb hm, hup] at hflag
      simpa using hflag.symm
  · intro h
    refine ⟨fun m => ?_, fun l => ?_, ht.complete⟩
    · rw [ht.pressed m]
      by_cases hm : s.key = m.left ∨ s.key = m.right
      · rw [if_pos hm]
        rcases hm with hm | hm
        · rw [holds_left kb hm]
          cases hup : s.pressed with
          | true => rfl
          | false => exact (h.left m hm hup).symm
        · rw [holds_right kb hm]
          cases hup : s.pressed with
          | true => exact (Bool.or_true _).symm
          | false => rw [h.right m hm hup, Bool.or_false]
      · rw [if_neg hm, holds_other kb hm]
        exact hagree.modifiers m
    · rw [ht.locked l, presses_stroke kb l.key, hagree.locks l]
      split
      · rw [odd_succ, Bool.xor_not]
      · rfl

theorem agrees_stroke_iff {kb : Keyboard} {f : Flags} {s : Stroke} {bytes : List UInt8}
    (hagree : Agrees kb f) (h : Sends kb s bytes) :
    Agrees (kb.stroke s) (f.afterAll bytes) ↔ Plain kb s := by
  rcases takes_of_sends hagree.complete h with ⟨ht, hpause⟩ | ⟨rfl, hctrl, hbytes⟩
  · exact ht.agrees_iff hagree hpause
  · rw [hbytes]
    constructor
    · intro hafter
      -- Num Lock is toggled, and its key was not pressed.
      have hbefore := hagree.locks .num
      have hnum := hafter.locks .num
      have hkey : ¬ (Key.pause = Lock.num.key ∧ true = true) := fun hk => pause_ordinary.lock .num hk.1
      rw [presses_stroke kb Lock.num.key, if_neg hkey, ← hbefore] at hnum
      have hflip : (!f.numLock) = f.numLock := hnum
      cases hlock : f.numLock <;> simp [hlock] at hflip
    · intro hplain
      have hheld := hplain.pause rfl rfl
      rw [hctrl] at hheld
      cases hheld

/-! ### Runs -/

theorem Follows.agrees {acked : List UInt8 → Bool} {kb : Keyboard} {d : Driver} {typing : Typing}
    (h : Follows acked kb d typing) : Agrees kb d.toFlags := by
  cases typing with
  | nil => exact h
  | cons stroke rest => exact h.1

theorem follows_iff (acked : List UInt8 → Bool) {kb : Keyboard} {d : Driver} {typing : Typing}
    (hagree : Agrees kb d.toFlags) (h : Encoded kb typing) :
    Follows acked kb d typing ↔ AllPlain kb typing := by
  induction typing generalizing kb d with
  | nil => exact ⟨fun _ => trivial, fun _ => hagree⟩
  | cons stroke rest ih =>
    obtain ⟨s, bytes⟩ := stroke
    obtain ⟨hsends, hrest⟩ := h
    have hstep : Agrees (kb.stroke s) (d.handleBytes acked bytes).toFlags ↔ Plain kb s := by
      rw [Driver.handleBytes_toFlags]
      exact agrees_stroke_iff hagree hsends
    constructor
    · rintro ⟨-, hfollows⟩
      have hnext := hfollows.agrees
      exact ⟨hstep.mp hnext, (ih hnext hrest).mp hfollows⟩
    · rintro ⟨hplain, hall⟩
      have hnext := hstep.mpr hplain
      exact ⟨hagree, (ih hnext hrest).mpr hall⟩

theorem init_agrees (d : Driver) : Agrees .idle d.ps2KbdInit.toFlags := by
  refine ⟨fun m => ?_, fun l => ?_, rfl⟩
  · cases m <;> rfl
  · cases l <;> rfl

/-- **The flags are those of the keyboard** after every stroke of a run if and only if Pause is
    pressed only with Ctrl, and no modifier is released while the other key of its kind is held. -/
theorem modifiers_follow_iff (acked : List UInt8 → Bool) (d : Driver) {typing : Typing}
    (h : Encoded .idle typing) : Follows acked .idle d.ps2KbdInit typing ↔ AllPlain .idle typing :=
  follows_iff acked (init_agrees d) h

/-- The left Shift key is pressed, then the right one, and the left one is released. -/
def overlap : Typing :=
  [(⟨Modifier.shift.left, true⟩, [0x2A]), (⟨Modifier.shift.right, true⟩, [0x36]),
    (⟨Modifier.shift.left, false⟩, [0xAA])]

def pauseAlone : Typing := [(⟨.pause, true⟩, [0xE1, 0x1D, 0x45, 0xE1, 0x9D, 0xC5])]

theorem overlap_encoded : Encoded .idle overlap :=
  ⟨.single _ true, .single _ true, .single _ false, trivial⟩

theorem pauseAlone_encoded : Encoded .idle pauseAlone := ⟨.pause rfl, trivial⟩

theorem modifiers_follow_iff_overlap :
    Follows (fun _ => true) .idle Driver.static.ps2KbdInit overlap ↔ AllPlain .idle overlap :=
  modifiers_follow_iff _ _ overlap_encoded

/-- The flag is cleared though the right key is held; and Pause toggles Num Lock. -/
theorem shift_lost :
    (Encoded .idle overlap ∧ ¬ Follows (fun _ => true) .idle Driver.static.ps2KbdInit overlap) ∧
      Encoded .idle pauseAlone ∧
        ¬ Follows (fun _ => true) .idle Driver.static.ps2KbdInit pauseAlone := by
  refine ⟨⟨overlap_encoded, fun h => ?_⟩, pauseAlone_encoded, fun h => ?_⟩
  · have hshift := h.2.2.2.modifiers .shift
    exact absurd hshift (by decide)
  · have hnum := h.2.locks .num
    exact absurd hnum (by decide)

end Gemios.Ps2
