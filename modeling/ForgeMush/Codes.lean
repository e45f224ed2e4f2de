import Mathlib.Data.List.DropRight

/-!
Telnet codes, telnet messages and the character handling they rest on.
-/

namespace ForgeMush

abbrev Bytes := List UInt8

/-- `enum TelnetCode : uint8_t`: every byte is a value of it, some of them have names. -/
abbrev TelnetCode := UInt8

namespace TelnetCode

abbrev LF : TelnetCode := 10
abbrev MXP : TelnetCode := 91
abbrev SE : TelnetCode := 240
abbrev SB : TelnetCode := 250
abbrev WILL : TelnetCode := 251
abbrev WONT : TelnetCode := 252
abbrev DO : TelnetCode := 253
abbrev DONT : TelnetCode := 254
abbrev IAC : TelnetCode := 255

/-- The test `onReceive` makes for a three-byte sequence. -/
def isNegotiation (c : TelnetCode) : Bool :=
  c = WILL || c = WONT || c = DO || c = DONT

lemma WILL_ne_DO : WILL ≠ DO := by decide

lemma SB_ne_IAC : SB ≠ IAC := by decide

lemma isNegotiation_SB : isNegotiation SB = false := rfl

end TelnetCode

/-- A negotiation: the command and the option. -/
abbrev Negotiation := TelnetCode × TelnetCode

/-- A `TelnetMessage`, each kind with the fields the code fills in for it. -/
inductive TelnetMessage
  | appData (data : Bytes)
  | command (code : TelnetCode)
  | negotiation (command option : TelnetCode)
  | subnegotiation (option : TelnetCode) (data : Bytes)
  deriving DecidableEq

/-! ### Characters -/

/-- A plain `char` of the target, promoted to `int`: it is signed. -/
def charValue (b : UInt8) : ℤ := b.toInt8.toInt

/-- `std::find` over the `char`s of a buffer: the index of the first one that compares
equal to the code, or the length. The code is promoted to `int` as the unsigned byte it
is. -/
def find (l : Bytes) (code : TelnetCode) : ℕ :=
  l.findIdx fun b => charValue b = (code.toNat : ℤ)

lemma charValue_lt (b : UInt8) : charValue b < 128 := b.toInt8.toInt_lt

/-- `std::isspace` in the classic locale. -/
def isSpace (b : UInt8) : Bool := b = 32 || (9 ≤ b && b ≤ 13)

/-- `boost::algorithm::trim`. -/
def trim (l : Bytes) : Bytes := (l.rdropWhile isSpace).dropWhile isSpace

/-- No `char` compares equal to IAC, so a search for it always runs to the end. -/
lemma find_IAC (l : Bytes) : find l TelnetCode.IAC = l.length := by
  refine List.findIdx_eq_length.mpr fun b _ => ?_
  have := charValue_lt b
  have hIAC : ((TelnetCode.IAC.toNat : ℕ) : ℤ) = 255 := rfl
  simp only [hIAC, decide_eq_false_iff_not]
  omega

lemma charValue_eq_LF_iff (b : UInt8) :
    charValue b = (TelnetCode.LF.toNat : ℤ) ↔ b = TelnetCode.LF := by
  have hLF : ((TelnetCode.LF.toNat : ℕ) : ℤ) = TelnetCode.LF.toInt8.toInt := rfl
  rw [hLF, charValue, Int8.toInt_inj]
  exact ⟨fun h => congrArg Int8.toUInt8 h, fun h => h ▸ rfl⟩

end ForgeMush
