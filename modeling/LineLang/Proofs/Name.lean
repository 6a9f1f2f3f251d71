import LineLang.Layout

/-!
# Words

A word that stands alone is a number, a constant or a name, and no word is two of these.

- `checkDeclared_eq_ok`        : which names may be declared
- `Spells`                     : the words that a number is written as
- `Layout.ofWord_of_spells`, `Layout.ofWord_of_declared`  : how words are read
-/

namespace LineLang

/-- A word may be declared if it is a name that the language has not taken. -/
theorem checkDeclared_eq_ok {word : String} : checkDeclared word = .ok () ↔
    isIdentifier word = true ∧ constant? word = none ∧ Builtin.ofName? word = none := by
  unfold checkDeclared checkIdentifier isReserved
  cases isIdentifier word with
  | false => exact ⟨nofun, nofun⟩
  | true =>
      cases constant? word with
      | some x => exact ⟨nofun, nofun⟩
      | none =>
          cases Builtin.ofName? word with
          | some b => exact ⟨nofun, nofun⟩
          | none => exact ⟨fun _ => ⟨rfl, rfl, rfl⟩, fun _ => rfl⟩

def beginsNumber (word : String) : Bool :=
  word.toList.head?.any fun c => c.isDigit || c = '.'

namespace Text

theorem isDigit_bounds {c : Char} (h : c.isDigit = true) : 48 ≤ c.toNat ∧ c.toNat ≤ 57 := by
  simpa [Char.isDigit, UInt32.le_iff_toNat_le] using h

theorem isAlpha_bounds {c : Char} (h : c.isAlpha = true) :
    65 ≤ c.toNat ∧ c.toNat ≤ 90 ∨ 97 ≤ c.toNat ∧ c.toNat ≤ 122 := by
  rcases Bool.or_eq_true_iff.1 h with hupper | hlower
  · have hletter : 65 ≤ c.val ∧ c.val ≤ 90 := of_decide_eq_true hupper
    exact .inl hletter
  · have hletter : (decide (97 ≤ c.val) && decide (c.val ≤ 122)) = true := hlower
    exact .inr (by simpa [UInt32.le_iff_toNat_le] using hletter)

theorem isAlphabetic_bounds {c : Char} (h : isAlphabetic c = true) : 57 < c.toNat := by
  unfold isAlphabetic at h
  split at h
  · have hbounds := isAlpha_bounds h
    omega
  · omega

/-- A letter is neither a digit nor a point. -/
theorem isAlphabetic_ne {c : Char} (h : isAlphabetic c = true) :
    (c.isDigit || c = '.') = false := by
  have hbounds := isAlphabetic_bounds h
  rw [Bool.or_eq_false_iff, decide_eq_false_iff_not]
  constructor
  · cases hd : c.isDigit with
    | false => rfl
    | true =>
        have hdigit := isDigit_bounds hd
        omega
  · rintro rfl
    exact absurd hbounds (by decide)

end Text

/-- A name does not begin with a digit. -/
theorem beginsNumber_of_identifier {word : String} (h : isIdentifier word = true) :
    beginsNumber word = false := by
  unfold isIdentifier at h
  unfold beginsNumber
  cases hw : word.toList with
  | nil => rfl
  | cons c cs =>
      rw [hw] at h
      rcases Bool.and_eq_true_iff.1 h with ⟨hfirst, -⟩
      rcases Bool.or_eq_true_iff.1 hfirst with hletter | hunderscore
      · exact Text.isAlphabetic_ne hletter
      · cases of_decide_eq_true hunderscore
        rfl

/-- Neither does the name of a constant. -/
theorem beginsNumber_of_constant {word : String} {x : Float} (h : constant? word = some x) :
    beginsNumber word = false := by
  unfold constant? at h
  split at h
  · decide
  · decide
  · decide
  · decide
  · decide
  · decide
  · cases h

/-- A word that a number is written as: in digits, or as the name of a constant. -/
def Spells (word : String) (x : Float) : Prop :=
  beginsNumber word = true ∧ Number.read? word = some x ∨ constant? word = some x

namespace Layout

variable {word : String}

theorem ofWord_eq (word : String) : ofWord word =
    if beginsNumber word then
      match Number.read? word with
      | some x => .literal (.number x)
      | none => .malformed (.invalidNumber word)
    else
      match constant? word with
      | some x => .literal (.number x)
      | none => if isIdentifier word then .name word else .malformed (.invalidIdentifier word) :=
  rfl

theorem ofWord_of_spells {x : Float} (h : Spells word x) : ofWord word = .literal (.number x) := by
  rw [ofWord_eq]
  rcases h with ⟨hbegins, hread⟩ | hconstant
  · rw [if_pos hbegins, hread]
  · rw [if_neg (by rw [beginsNumber_of_constant hconstant]; exact Bool.false_ne_true), hconstant]

theorem ofWord_of_declared (h : checkDeclared word = .ok ()) : ofWord word = .name word := by
  rcases checkDeclared_eq_ok.1 h with ⟨hidentifier, hconstant, -⟩
  rw [ofWord_eq, if_neg (by rw [beginsNumber_of_identifier hidentifier]; exact Bool.false_ne_true),
    hconstant]
  exact if_pos hidentifier

end Layout
end LineLang
