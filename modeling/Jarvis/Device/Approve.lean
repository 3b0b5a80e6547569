import Jarvis.Quoting
import Jarvis.Device.Approval

/-!
# `jarvis-approve`: what the approver is shown

The command line tool that signs approvals shows the request first. Source:
`daemons/mac-daemon/src/bin/jarvis-approve.rs`.
-/

namespace Jarvis.Device

/-! ### Source -/

def isAsciiAlphanumeric (b : UInt8) : Bool :=
  (48 ≤ b && b ≤ 57) || (65 ≤ b && b ≤ 90) || (97 ≤ b && b ≤ 122)

def plainByte (b : UInt8) : Bool := isAsciiAlphanumeric b || (utf8 "-_./:=@%+,").contains b

/-- Source: `shell_quote` -/
def shellQuote (arg : String) : String :=
  let plain := arg ≠ "" ∧ (utf8 arg).all plainByte = true
  if plain then arg
  else "'" ++ String.ofList (Quoting.replaceQuotes arg.toList) ++ "'"

/-- The command as it is shown. Source: `command.join(" ")` in `describe` -/
def commandText (words : List String) : String := " ".intercalate (words.map shellQuote)

/-! ### The plain characters -/

/-- A character whose bytes are all plain. -/
def plainChar (c : Char) : Bool := (String.utf8EncodeChar c).all plainByte

theorem all_plainByte (s : String) : (utf8 s).all plainByte = s.toList.all plainChar := by
  rw [utf8_eq_flatMap, List.all_flatMap]
  rfl

theorem shellQuote_eq (arg : String) : (shellQuote arg).toList =
    Quoting.quote plainChar arg.toList := by
  have hnil : arg ≠ "" ↔ arg.toList ≠ [] := by simp
  unfold shellQuote Quoting.quote
  dsimp only
  rw [all_plainByte]
  by_cases h : arg ≠ "" ∧ arg.toList.all plainChar = true
  · rw [if_pos h, if_pos ⟨hnil.mp h.1, h.2⟩]
  · rw [if_neg h, if_neg fun h' => h ⟨hnil.mpr h'.1, h'.2⟩]
    simp

/-- **The command that is shown is unambiguous.** -/
theorem commandText_injective : Function.Injective commandText := by
  intro words words' h
  have hlist : Quoting.joinWords plainChar (words.map String.toList) =
      Quoting.joinWords plainChar (words'.map String.toList) := by
    have htexts := congrArg String.toList h
    simp only [commandText, String.toList_intercalate, List.map_map] at htexts
    simp only [Quoting.joinWords, List.map_map, Function.comp_def, ← shellQuote_eq]
    exact htexts
  have hwords := Quoting.joinWords_injective (by decide) (by decide) hlist
  exact (List.map_inj_right fun _ _ => String.toList_injective).mp hwords

end Jarvis.Device
