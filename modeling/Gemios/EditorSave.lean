import Gemios.EditorRefine
import Mathlib.Data.List.TakeDrop

/-!
# When the editor drops a text

The editor leaves, or starts a new document, with changes that are in no file: after a save that
failed or that went to another name, and after the exit key was pressed at the question before
the exit.
-/

namespace Gemios.Editor

namespace Ed

def SaveEnv.Ok (env : SaveEnv) : Prop :=
  env.device = true ∧ env.mount = true ∧ env.memory = true ∧ env.write = true

instance (env : SaveEnv) : Decidable env.Ok := inferInstanceAs (Decidable (_ ∧ _))

/-- The text is dropped by this key: the editor leaves or starts a new document. -/
def Drops (s : Ed) (key : Key) : Prop :=
  s.running = true ∧
    ((s.turn key).running = false ∨ s.deciding = false ∧ key.code = KEY_CTRL_N)

/-- The answer to the question before the exit is no: n or N. -/
def SaysNo (s : Ed) (key : Key) : Prop :=
  s.deciding = true ∧ (key.code = 0x6E ∨ key.code = 0x4E)

/-- A text with changes that is dropped by this key is in the file that was opened, or not wanted. -/
def Kept (s : Ed) (devName filename : List UInt8) (key : Key) : Prop :=
  s.Drops key → s.modified = true →
    s.SaysNo key ∨ (s.turn key).saved = some ⟨devName, filename, s.text⟩

/-- The key leads to a save before the text is dropped. -/
def LastSave (s : Ed) (key : Key) : Prop :=
  s.deciding = true ∧ isYes key.code = true ∨
    s.deciding = false ∧ s.modified = true ∧ key.code = KEY_CTRL_N

/-- The exit key is not pressed again at the question, the last save gets through, and the names
    fit into their buffers. -/
def Careful (s : Ed) (devName filename : List UInt8) (key : Key) : Prop :=
  s.running = true →
    (s.deciding = true → ¬ (key.code = KEY_CTRL_Q ∨ key.code = KEY_CTRL_X)) ∧
    (s.LastSave key → key.env.Ok ∧ devName.length ≤ 15 ∧ filename.length ≤ 63)

end Ed

/-- The names are the ones that were given, as far as there is room, and a change is in no file
    before it is saved. -/
structure Honest (s : Ed) (devName filename : List UInt8) : Prop where
  devName : s.devName = devName.take 15
  filename : s.filename = filename.take 63
  unsaved : s.modified = true → s.saved = none
  deciding : s.deciding = true → s.modified = true

/-! ### Saving -/

theorem saveFile_ok {s : Ed} {env : Ed.SaveEnv} (h : env.Ok) :
    (s.saveFile env).1 =
      { s with modified := false, saved := some ⟨s.devName, s.filename, s.text⟩ } := by
  obtain ⟨hdevice, hmount, hmemory, hwrite⟩ := h
  unfold Ed.saveFile
  rw [hdevice, hmount, hmemory, hwrite]
  rfl

theorem saveFile_failed {s : Ed} {env : Ed.SaveEnv} (h : ¬ env.Ok) : (s.saveFile env).1 = s := by
  unfold Ed.saveFile
  repeat' split
  all_goals try rfl
  rename_i hdevice hmount hmemory hwrite
  simp only [Bool.not_eq_true', Bool.not_eq_false] at hdevice hmount hmemory
  exact absurd ⟨hdevice, hmount, hmemory, hwrite⟩ h

namespace Honest

variable {s : Ed} {devName filename : List UInt8}

theorem saved_iff (h : Honest s devName filename) (hmod : s.modified = true) (env : Ed.SaveEnv) :
    (s.saveFile env).1.saved = some ⟨devName, filename, s.text⟩ ↔
      env.Ok ∧ devName.length ≤ 15 ∧ filename.length ≤ 63 := by
  by_cases hok : env.Ok
  · rw [saveFile_ok hok]
    show some (Written.mk s.devName s.filename s.text) = _ ↔ _
    rw [h.devName, h.filename, Option.some_inj, Written.mk.injEq, List.take_eq_self_iff,
      List.take_eq_self_iff]
    exact ⟨fun heq => ⟨hok, heq.1, heq.2.1⟩, fun hfit => ⟨hfit.2.1, hfit.2.2, rfl⟩⟩
  · rw [saveFile_failed hok, h.unsaved hmod]
    exact ⟨fun heq => absurd heq (by simp), fun hfit => absurd hfit.1 hok⟩

theorem edited (h : Honest s devName filename) {s' : Ed} (he : Edited s s') :
    Honest s' devName filename where
  devName := he.devName.trans h.devName
  filename := he.filename.trans h.filename
  unsaved := by
    rcases he.change with ⟨hmod, hsaved⟩ | ⟨-, hsaved⟩
    · rw [hmod, hsaved]
      exact h.unsaved
    · exact fun _ => hsaved
  deciding := by
    rw [he.deciding]
    rcases he.change with ⟨hmod, -⟩ | ⟨hmod, -⟩
    · rw [hmod]
      exact h.deciding
    · exact fun _ => hmod

theorem saveFile (h : Honest s devName filename) (hdeciding : s.deciding = false)
    (env : Ed.SaveEnv) : Honest (s.saveFile env).1 devName filename := by
  by_cases hok : env.Ok
  · rw [saveFile_ok hok]
    refine ⟨h.devName, h.filename, fun hmod => absurd hmod Bool.false_ne_true, fun hdec => ?_⟩
    exact absurd (hdeciding.symm.trans hdec) Bool.false_ne_true
  · rw [saveFile_failed hok]
    exact h

theorem newDocument (h : Honest s devName filename) (hdeciding : s.deciding = false) :
    Honest s.newDocument devName filename :=
  ⟨h.devName, h.filename, fun hmod => absurd hmod Bool.false_ne_true,
    fun hdec => absurd (hdeciding.symm.trans hdec) Bool.false_ne_true⟩

theorem command (h : Honest s devName filename) (hdeciding : s.deciding = false) (c : Nat)
    (env : Ed.SaveEnv) : Honest (s.command c env) devName filename := by
  by_cases hsave : c = KEY_CTRL_S
  · unfold Ed.command
    rw [if_pos hsave]
    exact h.saveFile hdeciding env
  · by_cases hexit : c = KEY_CTRL_Q ∨ c = KEY_CTRL_X ∨ c = KEY_ESC
    · unfold Ed.command
      rw [if_neg hsave, if_pos hexit]
      split
      · rename_i hmod
        exact ⟨h.devName, h.filename, h.unsaved, fun _ => hmod⟩
      · exact ⟨h.devName, h.filename, h.unsaved, h.deciding⟩
    · by_cases hnew : c = KEY_CTRL_N
      · unfold Ed.command
        rw [if_neg hsave, if_neg hexit, if_pos hnew]
        split
        · refine (h.saveFile hdeciding env).newDocument ?_
          rw [(saveFile_waits s env).2, hdeciding]
        · exact h.newDocument hdeciding
      · exact h.edited (.command s env hsave hexit hnew)

theorem answer (h : Honest s devName filename) (c : Nat) (env : Ed.SaveEnv) :
    Honest (s.answer c env) devName filename := by
  unfold Ed.answer
  split
  · by_cases hok : env.Ok
    · rw [saveFile_ok hok]
      exact ⟨h.devName, h.filename, fun hmod => absurd hmod Bool.false_ne_true,
        fun hdec => absurd hdec Bool.false_ne_true⟩
    · rw [saveFile_failed hok]
      exact ⟨h.devName, h.filename, h.unsaved, fun hdec => absurd hdec Bool.false_ne_true⟩
  · split
    · exact ⟨h.devName, h.filename, h.unsaved, fun hdec => absurd hdec Bool.false_ne_true⟩
    · split
      · exact ⟨h.devName, h.filename, h.unsaved, fun hdec => absurd hdec Bool.false_ne_true⟩
      · exact h

theorem turn (h : Honest s devName filename) (key : Ed.Key) :
    Honest (s.turn key) devName filename := by
  unfold Ed.turn
  split
  · exact h
  · split
    · exact h.answer key.code key.env
    · rename_i hdeciding
      exact (h.edited (.adjustView s)).command (Bool.eq_false_iff.mpr hdeciding) key.code key.env

theorem run (h : Honest s devName filename) (keys : List Ed.Key) :
    Honest (s.run keys) devName filename := by
  induction keys generalizing s with
  | nil => exact h
  | cons key keys ih => exact ih (h.turn key)

end Honest

/-! ### One key -/

theorem not_drops_of_runs {s : Ed} {key : Ed.Key} (hrun : (s.turn key).running = true)
    (hnew : s.deciding = true ∨ key.code ≠ KEY_CTRL_N) : ¬ s.Drops key := by
  rintro ⟨-, hstop | ⟨hdec, hcode⟩⟩
  · exact Bool.false_ne_true (hstop.symm.trans hrun)
  · rcases hnew with hdec' | hne
    · exact Bool.false_ne_true (hdec.symm.trans hdec')
    · exact hne hcode

theorem isNo_iff (c : Nat) :
    Ed.isNo c = true ↔ (c = 0x6E ∨ c = 0x4E) ∨ c = KEY_CTRL_Q ∨ c = KEY_CTRL_X := by
  simp only [Ed.isNo, Bool.or_eq_true, beq_iff_eq]
  exact ⟨fun h => h.elim (fun h => h.elim .inl fun h => .inr (.inl h)) fun h => .inr (.inr h),
    fun h => h.elim (fun h => .inl (.inl h)) fun h => h.elim (fun h => .inl (.inr h)) .inr⟩

theorem not_isNo_of_isYes {c : Nat} (h : Ed.isYes c = true) : ¬ Ed.isNo c = true := by
  intro hno
  simp only [Ed.isYes, Bool.or_eq_true, beq_iff_eq] at h
  rw [isNo_iff] at hno
  unfold KEY_CTRL_Q KEY_CTRL_X at hno
  omega

namespace Honest

variable {s : Ed} {devName filename : List UInt8}

theorem kept_answer (h : Honest s devName filename) {key : Ed.Key} (hrun : s.running = true)
    (hdec : s.deciding = true) :
    s.Kept devName filename key ↔ s.Careful devName filename key := by
  have hmod := h.deciding hdec
  have hturn : s.turn key = s.answer key.code key.env := by
    unfold Ed.turn
    rw [hrun, hdec]
    rfl
  have hsave : s.LastSave key ↔ Ed.isYes key.code = true :=
    ⟨fun h => h.elim And.right fun h => absurd (h.1.symm.trans hdec) Bool.false_ne_true,
      fun h => .inl ⟨hdec, h⟩⟩
  have hcareful : s.Careful devName filename key ↔
      ¬ (key.code = KEY_CTRL_Q ∨ key.code = KEY_CTRL_X) ∧ (Ed.isYes key.code = true →
        key.env.Ok ∧ devName.length ≤ 15 ∧ filename.length ≤ 63) := by
    unfold Ed.Careful
    rw [hsave]
    exact ⟨fun h => ⟨(h hrun).1 hdec, (h hrun).2⟩, fun h _ => ⟨fun _ => h.1, h.2⟩⟩
  rw [hcareful]
  unfold Ed.Kept
  by_cases hyes : Ed.isYes key.code = true
  · have hno := not_isNo_of_isYes hyes
    have hquit : ¬ (key.code = KEY_CTRL_Q ∨ key.code = KEY_CTRL_X) :=
      fun hc => hno ((isNo_iff _).mpr (.inr hc))
    have hanswer : s.turn key =
        { (s.saveFile key.env).1 with running := false, deciding := false } := by
      rw [hturn, Ed.answer, if_pos hyes]
    have hdrops : s.Drops key := ⟨hrun, .inl (by rw [hanswer])⟩
    have hnot : ¬ s.SaysNo key := fun h => hno ((isNo_iff _).mpr (.inl h.2))
    rw [show (s.turn key).saved = (s.saveFile key.env).1.saved by rw [hanswer],
      h.saved_iff hmod key.env]
    exact ⟨fun hkept => ⟨hquit, fun _ => (hkept hdrops hmod).resolve_left hnot⟩,
      fun hcareful _ _ => .inr (hcareful.2 hyes)⟩
  · by_cases hno : Ed.isNo key.code = true
    · have hanswer : s.turn key = { s with running := false, deciding := false } := by
        rw [hturn, Ed.answer, if_neg hyes, if_pos hno]
      have hdrops : s.Drops key := ⟨hrun, .inl (by rw [hanswer])⟩
      have hlost : ¬ (s.turn key).saved = some ⟨devName, filename, s.text⟩ := by
        rw [hanswer, h.unsaved hmod]
        exact fun heq => absurd heq (by simp)
      refine ⟨fun hkept => ⟨fun hquit => ?_, fun hc => absurd hc hyes⟩, fun hcareful _ _ => ?_⟩
      · have hsays := ((hkept hdrops hmod).resolve_right hlost).2
        unfold KEY_CTRL_Q KEY_CTRL_X at hquit
        omega
      · exact .inl ⟨hdec, ((isNo_iff _).mp hno).resolve_right hcareful.1⟩
    · -- the question stays, or is taken back
      have hruns : (s.turn key).running = true := by
        rw [hturn, Ed.answer, if_neg hyes, if_neg hno]
        split
        · exact hrun
        · exact hrun
      have hdrops := not_drops_of_runs hruns (.inl hdec)
      exact ⟨fun _ => ⟨fun hquit => hno ((isNo_iff _).mpr (.inr hquit)), fun hc => absurd hc hyes⟩,
        fun _ hd => absurd hd hdrops⟩

theorem kept_command (h : Honest s devName filename) {key : Ed.Key} (hrun : s.running = true)
    (hdec : s.deciding = false) :
    s.Kept devName filename key ↔ s.Careful devName filename key := by
  have hask : ¬ s.deciding = true := Bool.eq_false_iff.mp hdec
  have hturn : s.turn key = s.adjustView.command key.code key.env := by
    unfold Ed.turn
    rw [hrun, hdec]
    rfl
  have hsave : s.LastSave key ↔ s.modified = true ∧ key.code = KEY_CTRL_N :=
    ⟨fun h => h.elim (fun h => absurd h.1 hask) And.right, fun h => .inr ⟨hdec, h⟩⟩
  have hcareful : s.Careful devName filename key ↔ (s.modified = true ∧ key.code = KEY_CTRL_N →
      key.env.Ok ∧ devName.length ≤ 15 ∧ filename.length ≤ 63) := by
    unfold Ed.Careful
    rw [hsave]
    exact ⟨fun h => (h hrun).2, fun h _ => ⟨fun hc => absurd hc hask, h⟩⟩
  rw [hcareful]
  unfold Ed.Kept
  by_cases hnew : key.code = KEY_CTRL_N
  · have hdrops : s.Drops key := ⟨hrun, .inr ⟨hdec, hnew⟩⟩
    have hnot : ¬ s.SaysNo key := fun h => hask h.1
    by_cases hmod : s.modified = true
    · have hsaved : (s.turn key).saved = (s.adjustView.saveFile key.env).1.saved := by
        have hmod' : s.adjustView.modified = true := hmod
        rw [hturn, hnew, Ed.command, if_neg (by decide), if_neg (by decide), if_pos rfl,
          if_pos hmod']
        rfl
      have hiff := (h.edited (.adjustView s)).saved_iff hmod key.env
      rw [hsaved, show s.text = s.adjustView.text from rfl, hiff]
      exact ⟨fun hkept _ => (hkept hdrops hmod).resolve_left hnot,
        fun hcareful _ _ => .inr (hcareful ⟨hmod, hnew⟩)⟩
    · exact ⟨fun _ hc => absurd hc.1 hmod, fun _ _ hc => absurd hc hmod⟩
  · refine ⟨fun _ hc => absurd hc.2 hnew, fun _ hd hmod => ?_⟩
    refine absurd hd (not_drops_of_runs ?_ (.inr hnew))
    rw [hturn]
    by_cases hexit : key.code = KEY_CTRL_Q ∨ key.code = KEY_CTRL_X ∨ key.code = KEY_ESC
    · have hsave : key.code ≠ KEY_CTRL_S := by
        rcases hexit with hc | hc | hc <;> rw [hc] <;> decide
      have hmod' : s.adjustView.modified = true := hmod
      rw [Ed.command, if_neg hsave, if_pos hexit, if_pos hmod']
      exact hrun
    · rw [(command_waits key.env hexit).1]
      exact hrun

theorem kept_iff (h : Honest s devName filename) (key : Ed.Key) :
    s.Kept devName filename key ↔ s.Careful devName filename key := by
  by_cases hrun : s.running = true
  · by_cases hdec : s.deciding = true
    · exact h.kept_answer hrun hdec
    · exact h.kept_command hrun (Bool.eq_false_iff.mpr hdec)
  · exact ⟨fun _ hc => absurd hc hrun, fun _ hd => absurd hd.1 hrun⟩

end Honest

/-! ### Runs -/

/-- The names that `editor_open` is given, or the ones it takes instead. -/
def Ed.opened (devName filename : List UInt8) : List UInt8 × List UInt8 :=
  (if devName = [] then Ed.DEFAULT_DEV else devName,
    if filename = [] then Ed.DEFAULT_FILE else filename)

theorem honest_openFile (devName filename : List UInt8) (file : Option (List UInt8))
    (cols rows : Nat) :
    Honest (Ed.openFile devName filename file cols rows) (Ed.opened devName filename).1
      (Ed.opened devName filename).2 := by
  unfold Ed.openFile
  rw [loadFile_frame]
  exact ⟨rfl, rfl, fun h => absurd h Bool.false_ne_true, fun h => absurd h Bool.false_ne_true⟩

/-- In every run, no text with changes is dropped that is not in the file that was opened or
    unwanted, exactly if every key is careful. -/
theorem text_kept_iff (devName filename : List UInt8) (file : Option (List UInt8))
    (cols rows : Nat) (keys : List Ed.Key) :
    let start := Ed.openFile devName filename file cols rows
    let names := Ed.opened devName filename
    (∀ before key after, keys = before ++ key :: after →
        (start.run before).Kept names.1 names.2 key) ↔
      ∀ before key after, keys = before ++ key :: after →
        (start.run before).Careful names.1 names.2 key := by
  intro start names
  refine forall_congr' fun before => forall_congr' fun key => forall_congr' fun _ =>
    imp_congr_right fun _ => ?_
  exact ((honest_openFile devName filename file cols rows).run before).kept_iff key

/-- A letter is typed, and a new document started while the file cannot be written. -/
theorem new_document_drops :
    ¬ ∀ (devName filename : List UInt8) (file : Option (List UInt8)) (cols rows : Nat)
      (keys before after : List Ed.Key) (key : Ed.Key), keys = before ++ key :: after →
        ((Ed.openFile devName filename file cols rows).run before).Kept
          (Ed.opened devName filename).1 (Ed.opened devName filename).2 key := by
  intro h
  have hkept := h [] [] none 80 25 _ [⟨0x61, ⟨true, true, true, true⟩⟩] []
    ⟨KEY_CTRL_N, ⟨true, true, true, false⟩⟩ rfl
  have hdrops : Ed.Drops (Ed.run (Ed.openFile [] [] none 80 25)
      [⟨0x61, ⟨true, true, true, true⟩⟩]) ⟨KEY_CTRL_N, ⟨true, true, true, false⟩⟩ :=
    ⟨by decide, .inr ⟨by decide, by decide⟩⟩
  rcases hkept hdrops (by decide) with hno | hsaved
  · exact absurd hno.1 (by decide)
  · have hnone : (Ed.turn (Ed.run (Ed.openFile [] [] none 80 25)
        [⟨0x61, ⟨true, true, true, true⟩⟩]) ⟨KEY_CTRL_N, ⟨true, true, true, false⟩⟩).saved = none := by
      decide
    rw [hnone] at hsaved
    exact absurd hsaved (by simp)

end Gemios.Editor
