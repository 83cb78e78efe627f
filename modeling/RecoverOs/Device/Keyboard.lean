import RecoverOs.Device.Print
import RecoverOs.Fs.Ring

namespace RecoverOs.Device

open Bytes Fs Lib Transition

def shiftLMake : Nat := 0x2a
def shiftRMake : Nat := 0x36
def altLMake : Nat := 0x38
def altRMake : Nat := 0xe038
def ctrlLMake : Nat := 0x1d
def ctrlRMake : Nat := 0xe01d
def capsLockMake : Nat := 0x3a

def keymap : List (UInt8 × UInt8) :=
  [(0x00, 0x00), (0x1b, 0x1b), (0x31, 0x21), (0x32, 0x40), (0x33, 0x23), (0x34, 0x24), (0x35, 0x25), (0x36, 0x5e),
   (0x37, 0x26), (0x38, 0x2a), (0x39, 0x28), (0x30, 0x29), (0x2d, 0x5f), (0x3d, 0x2b), (0x08, 0x08), (0x09, 0x09),
   (0x71, 0x51), (0x77, 0x57), (0x65, 0x45), (0x72, 0x52), (0x74, 0x54), (0x79, 0x59), (0x75, 0x55), (0x69, 0x49),
   (0x6f, 0x4f), (0x70, 0x50), (0x5b, 0x7b), (0x5d, 0x7d), (0x0d, 0x0d), (0x00, 0x00), (0x61, 0x41), (0x73, 0x53),
   (0x64, 0x44), (0x66, 0x46), (0x67, 0x47), (0x68, 0x48), (0x6a, 0x4a), (0x6b, 0x4b), (0x6c, 0x4c), (0x3b, 0x3a),
   (0x27, 0x22), (0x60, 0x7e), (0x00, 0x00), (0x5c, 0x7c), (0x7a, 0x5a), (0x78, 0x58), (0x63, 0x43), (0x76, 0x56),
   (0x62, 0x42), (0x6e, 0x4e), (0x6d, 0x4d), (0x2c, 0x3c), (0x2e, 0x3e), (0x2f, 0x3f), (0x00, 0x00), (0x2a, 0x2a),
   (0x00, 0x00), (0x20, 0x20), (0x00, 0x00)]

structure Modifiers where
  ctrlStatus : Bool
  shiftStatus : Bool
  altStatus : Bool
  capsLockStatus : Bool
  deriving DecidableEq, Repr

structure Keyboard where
  status : Modifiers
  extScancode : Bool
  kbdBuf : Ioqueue
  display : Display

def twoSigns (scancode : Nat) : Bool :=
  decide (scancode < 0x0e ∨ scancode ∈ [0x29, 0x1a, 0x1b, 0x2b, 0x27, 0x28, 0x33, 0x34, 0x35])

def withShift (status : Modifiers) (scancode : Nat) : Bool :=
  if twoSigns scancode then status.shiftStatus
  else if status.shiftStatus && status.capsLockStatus then false
  else status.shiftStatus || status.capsLockStatus

def keyChar (shift : Bool) (index : Nat) : UInt8 :=
  if shift then (keymap.getD index (0, 0)).2 else (keymap.getD index (0, 0)).1

def withCtrl (status : Modifiers) (curChar : UInt8) : UInt8 :=
  if status.ctrlStatus = true ∧ (curChar = 0x6c ∨ curChar = 0x75 ∨ curChar = 0x63) then curChar - 0x61 else curChar

/-- A character that finds no room is dropped; one that finds room does not wait. -/
def Keyboard.put (k : Keyboard) (curChar : UInt8) : Keyboard :=
  if ioqFull k.kbdBuf then k
  else match ioqPutchar k.kbdBuf curChar with
    | .ok kbdBuf => { k with kbdBuf := kbdBuf }
    | .error _ => k

def Modifiers.made (status : Modifiers) (scancode : Nat) : Modifiers :=
  if scancode = ctrlLMake ∨ scancode = ctrlRMake then { status with ctrlStatus := true }
  else if scancode = shiftLMake ∨ scancode = shiftRMake then { status with shiftStatus := true }
  else if scancode = altLMake ∨ scancode = altRMake then { status with altStatus := true }
  else if scancode = capsLockMake then { status with capsLockStatus := !status.capsLockStatus }
  else status

def Modifiers.broken (status : Modifiers) (makeCode : Nat) : Modifiers :=
  if makeCode = ctrlLMake ∨ makeCode = ctrlRMake then { status with ctrlStatus := false }
  else if makeCode = shiftLMake ∨ makeCode = shiftRMake then { status with shiftStatus := false }
  else if makeCode = altLMake ∨ makeCode = altRMake then { status with altStatus := false }
  else status

/-- `intr_keyboard_hdl` when `byte` is read from the port. -/
def intrKeyboardHdl (k : Keyboard) (byte : UInt8) : Keyboard :=
  if byte = 0xe0 then { k with extScancode := true }
  else
    let scancode := if k.extScancode then 0xe000 ||| byte.toNat else byte.toNat
    let k := { k with extScancode := false }
    if scancode &&& 0x0080 ≠ 0 then { k with status := k.status.broken (scancode &&& 0xff7f) }
    else if (0 < scancode ∧ scancode < 0x3b) ∨ scancode = altRMake ∨ scancode = ctrlRMake then
      let shift := withShift k.status scancode
      let scancode := scancode &&& 0x00ff
      let curChar := keyChar shift scancode
      if curChar ≠ 0 then k.put (withCtrl k.status curChar)
      else { k with status := k.status.made scancode }
    else { k with display := putStr k.display (ascii "unknown key\n") }

/-- A key by the code it sends, alone or behind 0xe0. No code is the prefix itself, pressed or released. -/
structure Key where
  extended : Bool
  code : Nat
  physical : 0 < code ∧ code < 0x80 ∧ code ≠ 0x60
  deriving DecidableEq

def shiftL : Key := ⟨false, 0x2a, by decide⟩
def shiftR : Key := ⟨false, 0x36, by decide⟩
def ctrlL : Key := ⟨false, 0x1d, by decide⟩
def ctrlR : Key := ⟨true, 0x1d, by decide⟩
def altL : Key := ⟨false, 0x38, by decide⟩
def altR : Key := ⟨true, 0x38, by decide⟩
def capsLock : Key := ⟨false, 0x3a, by decide⟩

structure KeyEvent where
  key : Key
  pressed : Bool
  deriving DecidableEq

/-- The bytes of an event: the break code of a key is its make code with the highest bit. -/
def KeyEvent.bytes (event : KeyEvent) : List UInt8 :=
  (if event.key.extended then [0xe0] else []) ++
    [UInt8.ofNat (if event.pressed then event.key.code else event.key.code + 0x80)]

structure Typing where
  keyboard : Keyboard
  held : Key → Bool
  capsPresses : Nat

def deliver (s : Typing) (event : KeyEvent) : Typing where
  keyboard := event.bytes.foldl intrKeyboardHdl s.keyboard
  held := Function.update s.held event.key event.pressed
  capsPresses := if event = ⟨capsLock, true⟩ then s.capsPresses + 1 else s.capsPresses

def alternates : (Key → Bool) → List KeyEvent → Bool
  | _, [] => true
  | held, event :: events =>
    held event.key != event.pressed && alternates (Function.update held event.key event.pressed) events

@[mk_iff]
structure Tracks (s : Typing) : Prop where
  shift : s.keyboard.status.shiftStatus = (s.held shiftL || s.held shiftR)
  ctrl : s.keyboard.status.ctrlStatus = (s.held ctrlL || s.held ctrlR)
  alt : s.keyboard.status.altStatus = (s.held altL || s.held altR)
  caps : s.keyboard.status.capsLockStatus = decide (s.capsPresses % 2 = 1)
  whole : s.keyboard.extScancode = false

def Modifiers.press (status : Modifiers) (key : Key) : Modifiers :=
  if key.code = 0x1d then { status with ctrlStatus := true }
  else if key.code = 0x38 then { status with altStatus := true }
  else if key.extended then status
  else if key.code = 0x2a ∨ key.code = 0x36 then { status with shiftStatus := true }
  else if key.code = 0x3a then { status with capsLockStatus := !status.capsLockStatus }
  else status

def Modifiers.release (status : Modifiers) (key : Key) : Modifiers :=
  if key.code = 0x1d then { status with ctrlStatus := false }
  else if key.code = 0x38 then { status with altStatus := false }
  else if key.extended then status
  else if key.code = 0x2a ∨ key.code = 0x36 then { status with shiftStatus := false }
  else status

variable {k : Keyboard} {s : Typing}

theorem put_status (k : Keyboard) (curChar : UInt8) :
    (k.put curChar).status = k.status ∧ (k.put curChar).extScancode = k.extScancode := by
  unfold Keyboard.put
  split
  · exact ⟨rfl, rfl⟩
  · split <;> exact ⟨rfl, rfl⟩

theorem scancode_bits : ∀ b < 256, (b &&& 0x0080 ≠ 0 ↔ 128 ≤ b) ∧ ((0xe000 ||| b) &&& 0x0080 ≠ 0 ↔ 128 ≤ b) ∧
    b &&& 0xff7f = b % 128 ∧ (0xe000 ||| b) &&& 0xff7f = 0xe000 + b % 128 ∧ 0xe000 ||| b = 0xe000 + b ∧
    b &&& 0x00ff = b ∧ (0xe000 + b) &&& 0x00ff = b := by
  decide +kernel

theorem keyChar_zero : ∀ index < 0x3b, ∀ shift : Bool, keyChar shift index = 0 ↔
    index = 0 ∨ index = 0x1d ∨ index = 0x2a ∨ index = 0x36 ∨ index = 0x38 ∨ index = 0x3a := by
  decide +kernel

theorem released (status : Modifiers) (key : Key) :
    status.broken (if key.extended then 0xe000 + key.code else key.code) = status.release key := by
  have := key.physical
  unfold Modifiers.broken Modifiers.release ctrlLMake ctrlRMake shiftLMake shiftRMake altLMake altRMake
  cases key.extended <;> grind

theorem made_pressed (status : Modifiers) {key : Key} (alone : key.extended = false) :
    status.made key.code = status.press key := by
  have := key.physical
  unfold Modifiers.made Modifiers.press ctrlLMake ctrlRMake shiftLMake shiftRMake altLMake altRMake capsLockMake
  grind

theorem press_character (status : Modifiers) (key : Key) (plain : key.code ≠ 0x1d ∧ key.code ≠ 0x2a ∧ key.code ≠ 0x36 ∧
    key.code ≠ 0x38 ∧ key.code ≠ 0x3a) : status.press key = status := by
  obtain ⟨ctrl, shift_l, shift_r, alt, caps⟩ := plain
  unfold Modifiers.press
  rw [if_neg ctrl, if_neg alt, if_neg (not_or.mpr ⟨shift_l, shift_r⟩), if_neg caps, ite_self]

theorem code_ne_e0 {byte : UInt8} (key : Key) (code : byte.toNat % 128 = key.code) : byte ≠ 0xe0 := by
  intro same
  rw [same] at code
  exact key.physical.2.2 code.symm

theorem hdl_break {byte : UInt8} {key : Key} (code : byte.toNat = key.code + 0x80) (ext : k.extScancode = key.extended) :
    (intrKeyboardHdl k byte).status = k.status.release key ∧ (intrKeyboardHdl k byte).extScancode = false := by
  have physical := key.physical
  obtain ⟨high, high_ext, low_bits, low_bits_ext, -, -, -⟩ := scancode_bits byte.toNat byte.toNat_lt
  have low : byte.toNat % 128 = key.code := by omega
  have broken := released k.status key
  unfold intrKeyboardHdl
  rw [if_neg (code_ne_e0 key low), ext]
  cases extended : key.extended with
  | false =>
    rw [extended, if_neg Bool.false_ne_true] at broken
    rw [if_neg Bool.false_ne_true, if_pos (high.mpr (by omega)), low_bits, low, broken]
    exact ⟨rfl, rfl⟩
  | true =>
    rw [extended, if_pos rfl] at broken
    rw [if_pos rfl, if_pos (high_ext.mpr (by omega)), low_bits_ext, low, broken]
    exact ⟨rfl, rfl⟩

theorem hdl_make {byte : UInt8} {key : Key} (code : byte.toNat = key.code) (ext : k.extScancode = key.extended) :
    (intrKeyboardHdl k byte).status = k.status.press key ∧ (intrKeyboardHdl k byte).extScancode = false := by
  have physical := key.physical
  obtain ⟨high, high_ext, -, -, combined, index, index_ext⟩ := scancode_bits byte.toNat byte.toNat_lt
  rw [code] at high high_ext combined index index_ext
  unfold intrKeyboardHdl
  rw [if_neg (code_ne_e0 key (by omega)), ext, code]
  cases extended : key.extended with
  | false =>
    rw [if_neg Bool.false_ne_true, if_neg (fun set => by have := high.mp set; omega)]
    by_cases known : key.code < 0x3b
    · have characters := keyChar_zero key.code known (withShift k.status key.code)
      rw [if_pos (.inl ⟨physical.1, known⟩), index]
      dsimp only
      by_cases invisible : keyChar (withShift k.status key.code) key.code = 0
      · rw [if_neg (not_not.mpr invisible), made_pressed k.status extended]
        exact ⟨rfl, rfl⟩
      · have plain : key.code ≠ 0x1d ∧ key.code ≠ 0x2a ∧ key.code ≠ 0x36 ∧ key.code ≠ 0x38 ∧ key.code ≠ 0x3a := by
          have := mt characters.mpr invisible
          omega
        rw [if_pos invisible, press_character k.status key plain]
        exact put_status _ _
    · have unknown : ¬ ((0 < key.code ∧ key.code < 0x3b) ∨ key.code = altRMake ∨ key.code = ctrlRMake) := by
        unfold altRMake ctrlRMake
        omega
      rw [if_neg unknown, press_character k.status key (by omega)]
      exact ⟨rfl, rfl⟩
  | true =>
    rw [if_pos rfl, combined, if_neg (fun set => by have := high_ext.mp (combined ▸ set); omega)]
    by_cases known : key.code = 0x1d ∨ key.code = 0x38
    · have characters := keyChar_zero key.code (by omega) (withShift k.status (0xe000 + key.code))
      have extra : (0 < 0xe000 + key.code ∧ 0xe000 + key.code < 0x3b) ∨ 0xe000 + key.code = altRMake ∨
          0xe000 + key.code = ctrlRMake := by
        unfold altRMake ctrlRMake
        omega
      rw [if_pos extra, index_ext]
      dsimp only
      rw [if_neg (not_not.mpr (characters.mpr (by omega)))]
      refine ⟨?_, rfl⟩
      unfold Modifiers.made Modifiers.press ctrlLMake ctrlRMake shiftLMake shiftRMake altLMake altRMake capsLockMake
      grind
    · have unknown : ¬ ((0 < 0xe000 + key.code ∧ 0xe000 + key.code < 0x3b) ∨ 0xe000 + key.code = altRMake ∨
          0xe000 + key.code = ctrlRMake) := by
        unfold altRMake ctrlRMake
        omega
      rw [if_neg unknown]
      refine ⟨?_, rfl⟩
      unfold Modifiers.press
      rw [if_neg (fun ctrl => known (.inl ctrl)), if_neg (fun alt => known (.inr alt)), if_pos extended]

theorem hdl_e0 (k : Keyboard) : intrKeyboardHdl k 0xe0 = { k with extScancode := true } := if_pos rfl

theorem deliver_keyboard (whole : s.keyboard.extScancode = false) (event : KeyEvent) :
    (deliver s event).keyboard.status =
        (if event.pressed then s.keyboard.status.press event.key else s.keyboard.status.release event.key) ∧
      (deliver s event).keyboard.extScancode = false := by
  obtain ⟨key, pressed⟩ := event
  have physical := key.physical
  obtain ⟨before, kept, ext, run⟩ : ∃ before : Keyboard, before.status = s.keyboard.status ∧
      before.extScancode = key.extended ∧ (deliver s ⟨key, pressed⟩).keyboard =
        intrKeyboardHdl before (UInt8.ofNat (if pressed then key.code else key.code + 0x80)) := by
    unfold deliver KeyEvent.bytes
    cases extended : key.extended with
    | false => exact ⟨s.keyboard, rfl, whole, rfl⟩
    | true => exact ⟨{ s.keyboard with extScancode := true }, rfl, rfl, by rw [← hdl_e0]; rfl⟩
  rw [run, ← kept]
  cases pressed with
  | true => exact hdl_make (UInt8.toNat_ofNat_of_lt' (by change key.code < 256; omega)) ext
  | false => exact hdl_break (UInt8.toNat_ofNat_of_lt' (by change key.code + 0x80 < 256; omega)) ext

def twin (key : Key) : Option Key :=
  if key = shiftL then some shiftR else if key = shiftR then some shiftL
  else if key = ctrlL then some ctrlR else if key = ctrlR then some ctrlL
  else if key = altL then some altR else if key = altR then some altL
  else none

/-- A key goes up while the other key of its pair is down. -/
def ReleasesOne (s : Typing) (event : KeyEvent) : Prop :=
  event.pressed = false ∧ ∃ other, twin event.key = some other ∧ s.held other = true

def modifierKeys : List Key := [shiftL, shiftR, ctrlL, ctrlR, altL, altR, capsLock]

theorem other_key (status : Modifiers) {key : Key} (other : key ∉ modifierKeys) :
    status.press key = status ∧ status.release key = status := by
  obtain ⟨extended, code, physical⟩ := key
  simp only [modifierKeys, shiftL, shiftR, ctrlL, ctrlR, altL, altR, capsLock, List.mem_cons, Key.mk.injEq] at other
  unfold Modifiers.press Modifiers.release
  cases extended <;> grind

theorem odd_succ (n : Nat) : (!decide (n % 2 = 1)) = decide ((n + 1) % 2 = 1) := by
  rw [← decide_not, decide_eq_decide]
  omega

theorem deliver_other {event : KeyEvent} (other : event.key ∉ modifierKeys) :
    (∀ key ∈ modifierKeys, (deliver s event).held key = s.held key) ∧ (deliver s event).capsPresses = s.capsPresses := by
  constructor
  · intro key modifier
    refine Function.update_of_ne ?_ _ _
    rintro rfl
    exact other modifier
  · refine if_neg ?_
    rintro rfl
    exact other (by decide)

theorem other_tracks (tracks : Tracks s) {event : KeyEvent} (other : event.key ∉ modifierKeys) :
    Tracks (deliver s event) := by
  obtain ⟨status, whole⟩ := deliver_keyboard tracks.whole event
  obtain ⟨shift, ctrl, alt, caps, -⟩ := tracks
  obtain ⟨press, release⟩ := other_key s.keyboard.status other
  obtain ⟨held, presses⟩ := deliver_other (s := s) other
  rw [press, release, ite_self] at status
  rw [tracks_iff, status, whole, presses, held _ (by decide), held _ (by decide), held _ (by decide), held _ (by decide),
    held _ (by decide), held _ (by decide)]
  exact ⟨shift, ctrl, alt, caps, rfl⟩

theorem press_tracks (tracks : Tracks s) {key : Key} (modifier : key ∈ modifierKeys) :
    Tracks (deliver s ⟨key, true⟩) := by
  obtain ⟨status, whole⟩ := deliver_keyboard tracks.whole ⟨key, true⟩
  obtain ⟨shift, ctrl, alt, caps, -⟩ := tracks
  rw [tracks_iff, status, whole]
  simp only [modifierKeys, List.mem_cons, List.not_mem_nil, or_false] at modifier
  rcases modifier with rfl | rfl | rfl | rfl | rfl | rfl | rfl <;>
    simp +decide [deliver, Modifiers.press, shift, ctrl, alt, caps, odd_succ]

theorem release_tracks_iff (tracks : Tracks s) {key : Key} (modifier : key ∈ modifierKeys) :
    Tracks (deliver s ⟨key, false⟩) ↔ ¬ ReleasesOne s ⟨key, false⟩ := by
  obtain ⟨status, whole⟩ := deliver_keyboard tracks.whole ⟨key, false⟩
  obtain ⟨shift, ctrl, alt, caps, -⟩ := tracks
  rw [tracks_iff, status, whole]
  simp only [modifierKeys, List.mem_cons, List.not_mem_nil, or_false] at modifier
  rcases modifier with rfl | rfl | rfl | rfl | rfl | rfl | rfl <;>
    simp +decide [deliver, Modifiers.release, shift, ctrl, alt, caps, ReleasesOne, twin]

theorem event_tracks_iff (tracks : Tracks s) (event : KeyEvent) :
    Tracks (deliver s event) ↔ ¬ ReleasesOne s event := by
  obtain ⟨key, pressed⟩ := event
  by_cases modifier : key ∈ modifierKeys
  · cases pressed with
    | true => exact iff_of_true (press_tracks tracks modifier) (fun one => nomatch one.1)
    | false => exact release_tracks_iff tracks modifier
  · have alone : twin key = none := by
      simp only [modifierKeys, List.mem_cons, not_or] at modifier
      obtain ⟨shift_l, shift_r, ctrl_l, ctrl_r, alt_l, alt_r, -⟩ := modifier
      unfold twin
      rw [if_neg shift_l, if_neg shift_r, if_neg ctrl_l, if_neg ctrl_r, if_neg alt_l, if_neg alt_r]
    refine iff_of_true (other_tracks tracks modifier) ?_
    rintro ⟨-, other, paired, -⟩
    rw [alone] at paired
    exact nomatch paired

def start (kbdBuf : Ioqueue) (display : Display) : Typing where
  keyboard := ⟨⟨false, false, false, false⟩, false, kbdBuf, display⟩
  held := fun _ => false
  capsPresses := 0

theorem modifiers_track_iff (kbdBuf : Ioqueue) (display : Display) (events : List KeyEvent) :
    (∀ front back, events = front ++ back → Tracks (front.foldl deliver (start kbdBuf display))) ↔
      ∀ front event back, events = front ++ event :: back →
        ¬ ReleasesOne (front.foldl deliver (start kbdBuf display)) event := by
  have first : Tracks (start kbdBuf display) := ⟨rfl, rfl, rfl, rfl, rfl⟩
  have exact_step : ∀ t event, Tracks t → True → (Tracks (deliver t event) ↔ ¬ ReleasesOne t event) :=
    fun t event tracks _ => event_tracks_iff tracks event
  exact foldl_good_iff exact_step first events fun _ _ _ _ => True.intro

def bothShifts : List KeyEvent := [⟨shiftL, true⟩, ⟨shiftR, true⟩, ⟨shiftL, false⟩]

/-- Both shift keys go down and the left one goes up: the flag says that neither is down. -/
theorem shift_forgotten : alternates (fun _ => false) bothShifts = true ∧
    (bothShifts.foldl deliver (start (ioqueueInit fun _ => 0) someDisplay)).held shiftR = true ∧
    (bothShifts.foldl deliver (start (ioqueueInit fun _ => 0) someDisplay)).keyboard.status.shiftStatus = false := by
  refine ⟨by decide, by decide, ?_⟩
  rfl

end RecoverOs.Device
