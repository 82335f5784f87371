import Mathlib
import Lowering.Literal

/-! The tokens that numeric literals make. The text of a number is accepted by a wider grammar than that of
the tokens, and it is carried over as it is, so some of the texts that are accepted are no tokens. -/

namespace Lowering

/-- Digits, and low lines that only set them apart. -/
def Digits (text : List Char) : Prop :=
  ∀ char ∈ text, char.isDigit = true ∨ char = '_'

/-- A text without its low lines. -/
def plain (text : List Char) : List Char :=
  text.filter (· != '_')

/-- The text begins with a digit. -/
def Leads (text : List Char) : Prop :=
  ∃ digit rest, text = digit :: rest ∧ digit.isDigit = true

/-- A run of digits and low lines ends where such a text begins. -/
def Stops (text : List Char) : Prop :=
  ∀ char ∈ text.head?, char.isDigit = false ∧ char ≠ '_'

/-- A power of ten behind a number. -/
structure Power where
  mark : Char
  /-- Low lines in front of the sign. -/
  gap : List Char
  /-- The sign says whether the power is negative. -/
  sign : Option Bool
  digits : List Char

namespace Power

def signText : Option Bool → List Char
  | none => []
  | some false => ['+']
  | some true => ['-']

def text (power : Power) : List Char :=
  power.mark :: (power.gap ++ signText power.sign ++ power.digits)

def value (power : Power) : Int :=
  if power.sign = some true then -(Numeral.count (plain power.digits) : Int)
  else Numeral.count (plain power.digits)

structure Sound (power : Power) : Prop where
  mark : power.mark = 'e' ∨ power.mark = 'E'
  gap : ∀ char ∈ power.gap, char = '_'
  unsigned : power.sign = none → power.gap = []
  digits : Digits power.digits
  counted : plain power.digits ≠ []

end Power

/-- The parts of a number's text: digits, digits behind a point, and a power of ten. -/
structure Spelling where
  whole : List Char
  places : Option (List Char)
  power : Option Power

namespace Spelling

def pointText : Option (List Char) → List Char
  | none => []
  | some places => '.' :: places

def powerText : Option Power → List Char
  | none => []
  | some power => power.text

def text (spelling : Spelling) : List Char :=
  spelling.whole ++ pointText spelling.places ++ powerText spelling.power

def number (spelling : Spelling) : Decimal :=
  let places := plain (spelling.places.getD [])
  ⟨Numeral.count (plain spelling.whole ++ places), (spelling.power.map Power.value).getD 0 - places.length⟩

/-- What the reader of numbers asks of the parts. -/
structure Sound (spelling : Spelling) : Prop where
  whole : Digits spelling.whole
  places : ∀ places ∈ spelling.places, Digits places
  counted : plain spelling.whole ≠ [] ∨ plain (spelling.places.getD []) ≠ []
  power : ∀ power ∈ spelling.power, power.Sound

/-- What a token asks of them besides. It begins with a digit, a point or a power of ten tells it from a
whole number, a point is at its end or between digits, and the sign of a power stands right behind
the mark. -/
structure Strict (spelling : Spelling) : Prop where
  whole : Leads spelling.whole
  fractional : spelling.places ≠ none ∨ spelling.power ≠ none
  places : ∀ places ∈ spelling.places, Leads places ∨ places = [] ∧ spelling.power = none
  power : ∀ power ∈ spelling.power, power.gap = []

end Spelling

theorem digit_ne {char other : Char} (digit : char.isDigit = true) (odd : other.isDigit = false) : char ≠ other := by
  rintro rfl
  simp [digit] at odd

theorem plain_append (first last : List Char) : plain (first ++ last) = plain first ++ plain last :=
  List.filter_append first last

theorem plain_cons {char : Char} (shown : char ≠ '_') (rest : List Char) : plain (char :: rest) = char :: plain rest :=
  List.filter_cons_of_pos (bne_iff_ne.mpr shown)

theorem plain_lows {text : List Char} (lows : ∀ char ∈ text, char = '_') : plain text = [] := by
  refine List.filter_eq_nil_iff.mpr fun char member => ?_
  rw [lows char member]
  decide

theorem Digits.isDigit {text : List Char} (digits : Digits text) : ∀ char ∈ plain text, char.isDigit = true := by
  intro char member
  obtain ⟨inText, shown⟩ := List.mem_filter.mp member
  exact (digits char inText).resolve_right (bne_iff_ne.mp shown)

theorem digits_of_plain {text : List Char} (digits : ∀ char ∈ plain text, char.isDigit = true) : Digits text := by
  intro char member
  by_cases low : char = '_'
  · exact .inr low
  · exact .inl (digits char (List.mem_filter.mpr ⟨member, bne_iff_ne.mpr low⟩))

/-- The longest run of such characters that a text begins with, and what stands behind it. -/
theorem exists_run (among : Char → Bool) (text : List Char) : ∃ run rest, text = run ++ rest ∧
    (∀ char ∈ run, among char = true) ∧ ∀ char ∈ rest.head?, among char = false := by
  refine ⟨text.takeWhile among, text.dropWhile among, List.takeWhile_append_dropWhile.symm, ?_, ?_⟩
  · exact fun char member => List.mem_takeWhile_imp member
  · intro char first
    have stopped := List.head?_dropWhile_not among text
    rw [Option.mem_def.mp first] at stopped
    simpa using stopped

theorem exists_digits (text : List Char) : ∃ digits rest, text = digits ++ rest ∧ Digits digits ∧ Stops rest := by
  obtain ⟨digits, rest, parts, run, stops⟩ := exists_run (fun char => char.isDigit || char == '_') text
  exact ⟨digits, rest, parts, by simpa [Digits] using run, by simpa [Stops] using stops⟩

theorem Stops.head {text : List Char} (stops : Stops text) : ∀ char ∈ (plain text).head?, char.isDigit = false := by
  cases text with
  | nil => nofun
  | cons char rest =>
    obtain ⟨other, shown⟩ := stops char rfl
    rw [plain_cons shown]
    intro _ first
    cases first
    exact other

/-- The reader of numbers takes the same digits with and without low lines. -/
theorem take_digits {digits rest : List Char} (run : Digits digits) (stops : Stops rest) :
    (plain (digits ++ rest)).takeWhile Char.isDigit = plain digits ∧
      (plain (digits ++ rest)).dropWhile Char.isDigit = plain rest := by
  rw [plain_append, List.takeWhile_append_of_pos run.isDigit, List.dropWhile_append_of_pos run.isDigit]
  cases same : plain rest with
  | nil => exact ⟨List.append_nil _, rfl⟩
  | cons char behind =>
    have other := stops.head char (by rw [same]; rfl)
    simp [other]

section Reader

variable {text rest whole : List Char} {number : Decimal}

theorem signed_unsigned {text : List Char} (unsigned : ∀ char ∈ text.head?, char ≠ '+' ∧ char ≠ '-') :
    Numeral.signed text = (false, text) := by
  unfold Numeral.signed
  split
  · exact absurd rfl (unsigned '+' rfl).1
  · exact absurd rfl (unsigned '-' rfl).2
  · rfl

theorem Digits.unsigned {text : List Char} (run : Digits text) : Numeral.signed (plain text) = (false, plain text) := by
  refine signed_unsigned fun char first => ?_
  have digit := run.isDigit char (List.mem_of_mem_head? first)
  exact ⟨digit_ne digit rfl, digit_ne digit rfl⟩

/-- The sign of a power of ten is found behind any low lines. -/
theorem exists_signed (text : List Char) : ∃ gap sign digits, text = gap ++ Power.signText sign ++ digits ∧
    (∀ char ∈ gap, char = '_') ∧ (sign = none → gap = []) ∧
      Numeral.signed (plain text) = (decide (sign = some true), plain digits) := by
  obtain ⟨gap, rest, rfl, run, stops⟩ := exists_run (· == '_') text
  have lows : ∀ char ∈ gap, char = '_' := fun char member => beq_iff_eq.mp (run char member)
  have shown : ∀ char ∈ rest.head?, char ≠ '_' := fun char first => beq_eq_false_iff_ne.mp (stops char first)
  have same : plain (gap ++ rest) = plain rest := by rw [plain_append, plain_lows lows, List.nil_append]
  by_cases plus : rest.head? = some '+'
  · obtain ⟨digits, rfl⟩ := List.head?_eq_some_iff.mp plus
    refine ⟨gap, some false, digits, (List.append_assoc gap ['+'] digits).symm, lows, nofun, ?_⟩
    rw [same, plain_cons (by decide)]
    rfl
  by_cases minus : rest.head? = some '-'
  · obtain ⟨digits, rfl⟩ := List.head?_eq_some_iff.mp minus
    refine ⟨gap, some true, digits, (List.append_assoc gap ['-'] digits).symm, lows, nofun, ?_⟩
    rw [same, plain_cons (by decide)]
    rfl
  refine ⟨[], none, gap ++ rest, rfl, nofun, fun _ => rfl, ?_⟩
  rw [signed_unsigned]
  · rfl
  · rw [same]
    cases rest with
    | nil => nofun
    | cons char rest =>
      rw [plain_cons (shown char rfl)]
      intro _ first
      cases first
      exact ⟨fun same => plus (congrArg some same), fun same => minus (congrArg some same)⟩

/-- A power of ten is read whatever low lines stand in it. -/
theorem exponent_ok {exponent : Int} (stops : Stops rest) :
    Numeral.exponent? (plain rest) = some exponent ↔
      ∃ power : Option Power, (∀ one ∈ power, one.Sound) ∧ rest = Spelling.powerText power ∧
        exponent = (power.map Power.value).getD 0 := by
  constructor
  · intro found
    cases rest with
    | nil =>
      cases found
      exact ⟨none, nofun, rfl, rfl⟩
    | cons mark rest =>
      obtain ⟨gap, sign, digits, rfl, lows, unsigned, signed⟩ := exists_signed rest
      rw [plain_cons (stops mark rfl).2] at found
      simp only [Numeral.exponent?, signed] at found
      split at found
      next marked =>
        split at found
        next counted =>
          cases found
          have run := digits_of_plain (List.all_eq_true.mp counted.2)
          refine ⟨some ⟨mark, gap, sign, digits⟩, ?_, rfl, ?_⟩
          · rintro _ ⟨⟩
            exact ⟨marked, lows, unsigned, run, counted.1⟩
          · simp [Power.value]
        next => cases found
      next => cases found
  · rintro ⟨power, sound, same, value⟩
    subst same value
    cases power with
    | none => rfl
    | some power =>
      obtain ⟨marked, lows, unsigned, run, counted⟩ := sound power rfl
      have signed : Numeral.signed (plain (power.gap ++ Power.signText power.sign ++ power.digits)) =
          (decide (power.sign = some true), plain power.digits) := by
        rw [List.append_assoc, plain_append, plain_lows lows, List.nil_append, plain_append]
        rcases power.sign with _ | _ | _
        · exact run.unsigned
        · rfl
        · rfl
      rw [Spelling.powerText, Power.text, plain_cons (stops _ rfl).2]
      simp only [Numeral.exponent?, signed, marked, if_true, ne_eq, counted, not_false_eq_true, true_and,
        List.all_eq_true.mpr run.isDigit]
      simp [Power.value]

private theorem read_unless {missing : Prop} [Decidable missing] {found : Option Int} {reading : Int → Decimal} :
    (if missing then none else found.map reading) = some number ↔
      ¬ missing ∧ ∃ exponent, found = some exponent ∧ number = reading exponent := by
  by_cases none : missing
  · simp [none]
  · simp [none, eq_comm]

/-- Without a point, digits are followed by a power of ten. -/
theorem decimal_unpointed (run : Digits whole) (stops : Stops rest) (unpointed : rest.head? ≠ some '.') :
    Numeral.decimal? (plain (whole ++ rest)) = some number ↔
      plain whole ≠ [] ∧ ∃ exponent, Numeral.exponent? (plain rest) = some exponent ∧
        number = ⟨Numeral.count (plain whole), exponent⟩ := by
  obtain ⟨taken, dropped⟩ := take_digits run stops
  have pointless : ∀ behind, plain rest ≠ '.' :: behind := by
    intro behind same
    cases rest with
    | nil => cases same
    | cons char rest =>
      rw [plain_cons (stops char rfl).2] at same
      exact unpointed (congrArg some (List.cons.inj same).1)
  simp only [Numeral.decimal?, taken, dropped, read_unless, and_true, List.append_nil, List.length_nil,
    Int.sub_zero, Nat.cast_zero]

theorem decimal_pointed {places : List Char} (run : Digits whole) (behind : Digits places) (stops : Stops rest) :
    Numeral.decimal? (plain (whole ++ '.' :: (places ++ rest))) = some number ↔
      (plain whole ≠ [] ∨ plain places ≠ []) ∧ ∃ exponent, Numeral.exponent? (plain rest) = some exponent ∧
        number = ⟨Numeral.count (plain whole ++ plain places), exponent - (plain places).length⟩ := by
  have point : Stops ('.' :: (places ++ rest)) := by
    intro _ first
    cases first
    decide
  obtain ⟨taken, dropped⟩ := take_digits run point
  obtain ⟨taken', dropped'⟩ := take_digits behind stops
  rw [plain_cons (by decide)] at dropped
  simp only [Numeral.decimal?, taken, dropped, taken', dropped', read_unless, not_and_or, ne_eq]

theorem power_stops {power : Option Power} (sound : ∀ one ∈ power, one.Sound) :
    Stops (Spelling.powerText power) ∧ (Spelling.powerText power).head? ≠ some '.' := by
  cases power with
  | none => exact ⟨nofun, nofun⟩
  | some power =>
    have marked := (sound power rfl).mark
    refine ⟨?_, ?_⟩
    · intro _ first
      cases first
      rcases marked with same | same <;> rw [same] <;> decide
    · rcases marked with same | same <;> simp [Spelling.powerText, Power.text, same]

/-- The reader of numbers accepts a text exactly if it has sound parts, and then it reads their number. -/
theorem decimal_ok : Numeral.decimal? (plain text) = some number ↔
    ∃ spelling : Spelling, spelling.Sound ∧ spelling.text = text ∧ spelling.number = number := by
  constructor
  · intro found
    obtain ⟨whole, rest, rfl, run, stops⟩ := exists_digits text
    by_cases pointed : rest.head? = some '.'
    · obtain ⟨behind, rfl⟩ := List.head?_eq_some_iff.mp pointed
      obtain ⟨places, rest, rfl, behind, stops⟩ := exists_digits behind
      obtain ⟨counted, exponent, powered, rfl⟩ := (decimal_pointed run behind stops).mp found
      obtain ⟨power, sound, rfl, rfl⟩ := (exponent_ok stops).mp powered
      refine ⟨⟨whole, some places, power⟩, ⟨run, ?_, counted, sound⟩, ?_, rfl⟩
      · rintro _ ⟨⟩
        exact behind
      · simp [Spelling.text, Spelling.pointText]
    · obtain ⟨counted, exponent, powered, rfl⟩ := (decimal_unpointed run stops pointed).mp found
      obtain ⟨power, sound, rfl, rfl⟩ := (exponent_ok stops).mp powered
      refine ⟨⟨whole, none, power⟩, ⟨run, nofun, .inl counted, sound⟩, ?_, ?_⟩
      · simp [Spelling.text, Spelling.pointText]
      · simp [Spelling.number, plain]
  · rintro ⟨⟨whole, places, power⟩, ⟨run, behind, counted, sound⟩, same, value⟩
    subst same value
    obtain ⟨stops, unpointed⟩ := power_stops sound
    have powered := (exponent_ok stops).mpr ⟨power, sound, rfl, rfl⟩
    cases places with
    | none =>
      have text : Spelling.text ⟨whole, none, power⟩ = whole ++ Spelling.powerText power := by
        simp [Spelling.text, Spelling.pointText]
      rw [text, decimal_unpointed run stops unpointed]
      refine ⟨counted.resolve_right (· rfl), _, powered, ?_⟩
      simp [Spelling.number, plain]
    | some places =>
      have text : Spelling.text ⟨whole, some places, power⟩ = whole ++ '.' :: (places ++ Spelling.powerText power) := by
        simp [Spelling.text, Spelling.pointText]
      rw [text, decimal_pointed run (behind places rfl) stops]
      exact ⟨counted, _, powered, rfl⟩

end Reader

/-- What may stand behind what in a token: behind a point a digit, and no sign behind a low line. -/
def Follows (before behind : Char) : Prop :=
  (before = '.' → behind.isDigit = true) ∧ (before = '_' → behind ≠ '+' ∧ behind ≠ '-')

instance : DecidableRel Follows :=
  fun _ _ => inferInstanceAs (Decidable (_ ∧ _))

/-- A point or the mark of a power of ten, which tell a number from a whole one. -/
def isFractional (char : Char) : Bool :=
  char == '.' || char == 'e' || char == 'E'

section Adjacent

variable {whole rest : List Char} {spelling : Spelling} {power : Power}

theorem Digits.unmarked {char : Char} (run : Digits whole) (member : char ∈ whole) :
    char ≠ '.' ∧ char ≠ '+' ∧ char ≠ '-' ∧ isFractional char = false := by
  rcases run char member with digit | rfl
  · have point : char ≠ '.' := digit_ne digit rfl
    have small : char ≠ 'e' := digit_ne digit rfl
    have capital : char ≠ 'E' := digit_ne digit rfl
    exact ⟨point, digit_ne digit rfl, digit_ne digit rfl, by simp [isFractional, point, small, capital]⟩
  · decide

theorem Digits.chain (run : Digits whole) : whole.IsChain Follows := by
  refine List.Pairwise.isChain (List.pairwise_of_forall_mem_list fun before first behind last => ?_)
  have unsigned := run.unmarked last
  exact ⟨fun point => absurd point (run.unmarked first).1, fun _ => ⟨unsigned.2.1, unsigned.2.2.1⟩⟩

theorem chain_behind (run : Digits whole) (unsigned : ∀ char ∈ rest.head?, char ≠ '+' ∧ char ≠ '-') :
    (whole ++ rest).IsChain Follows ↔ rest.IsChain Follows := by
  rw [List.isChain_append]
  constructor
  · exact fun chain => chain.2.1
  · intro chain
    refine ⟨run.chain, chain, fun before last behind first => ?_⟩
    have member := List.mem_of_mem_getLast? last
    exact ⟨fun point => absurd point (run.unmarked member).1, fun _ => unsigned behind first⟩

theorem chain_point : ('.' :: rest).IsChain Follows ↔
    (∀ char ∈ rest.head?, char.isDigit = true) ∧ rest.IsChain Follows := by
  rw [List.isChain_cons]
  refine and_congr_left' (forall₂_congr fun char _ => ?_)
  constructor
  · exact fun follows => follows.1 rfl
  · exact fun digit => ⟨fun _ => digit, nofun⟩

theorem chain_mark {mark : Char} (ordinary : mark ≠ '.' ∧ mark ≠ '_') :
    (mark :: rest).IsChain Follows ↔ rest.IsChain Follows := by
  rw [List.isChain_cons]
  refine and_iff_right fun char _ => ?_
  exact ⟨fun same => absurd same ordinary.1, fun same => absurd same ordinary.2⟩

theorem Power.Sound.head (sound : power.Sound) : power.mark.isDigit = false ∧ power.mark ≠ '.' ∧ power.mark ≠ '_' ∧
    power.mark ≠ '+' ∧ power.mark ≠ '-' ∧ isFractional power.mark = true := by
  rcases sound.mark with same | same <;> rw [same] <;> decide

theorem Power.Sound.chain (sound : power.Sound) : power.text.IsChain Follows ↔ power.gap = [] := by
  have lows : Digits power.gap := fun char member => .inr (sound.gap char member)
  rw [Power.text, chain_mark ⟨sound.head.2.1, sound.head.2.2.1⟩, List.append_assoc]
  cases signed : power.sign with
  | none =>
    have empty := sound.unsigned signed
    rw [empty]
    exact iff_of_true sound.digits.chain rfl
  | some negative =>
    obtain ⟨sign, shown, ordinary, signs⟩ : ∃ sign, Power.signText (some negative) = [sign] ∧
        (sign ≠ '.' ∧ sign ≠ '_') ∧ (sign = '+' ∨ sign = '-') := by
      cases negative
      · exact ⟨'+', rfl, by decide, .inl rfl⟩
      · exact ⟨'-', rfl, by decide, .inr rfl⟩
    rw [shown, List.singleton_append, List.isChain_append, chain_mark ordinary]
    constructor
    · rintro ⟨_, _, boundary⟩
      by_contra some
      have last := boundary _ (List.getLast?_eq_some_getLast some) sign rfl
      have unsigned := last.2 (sound.gap _ (List.getLast_mem some))
      exact signs.elim unsigned.1 unsigned.2
    · intro empty
      refine ⟨lows.chain, sound.digits.chain, ?_⟩
      rw [empty]
      nofun

theorem power_unsigned {power : Option Power} (sound : ∀ one ∈ power, one.Sound) :
    ∀ char ∈ (Spelling.powerText power).head?, char.isDigit = false ∧ char ≠ '+' ∧ char ≠ '-' := by
  cases power with
  | none => nofun
  | some power =>
    have head := (sound power rfl).head
    rintro _ ⟨⟩
    exact ⟨head.1, head.2.2.2.1, head.2.2.2.2.1⟩

theorem power_chain {power : Option Power} (sound : ∀ one ∈ power, one.Sound) :
    (Spelling.powerText power).IsChain Follows ↔ ∀ one ∈ power, one.gap = [] := by
  cases power with
  | none => exact iff_of_true .nil nofun
  | some power =>
    simp only [Spelling.powerText, (sound power rfl).chain, Option.mem_def, Option.some.injEq, forall_eq']

namespace Spelling.Sound

theorem chain (sound : spelling.Sound) : spelling.text.IsChain Follows ↔
    (∀ places ∈ spelling.places, Leads places ∨ places = [] ∧ spelling.power = none) ∧
      ∀ power ∈ spelling.power, power.gap = [] := by
  have unsigned := power_unsigned sound.power
  cases placed : spelling.places with
  | none =>
    rw [text, placed, pointText, List.append_nil, chain_behind sound.whole fun char first => (unsigned char first).2,
      power_chain sound.power]
    exact (and_iff_right nofun).symm
  | some places =>
    have behind := sound.places places placed
    rw [text, placed, pointText, List.append_assoc, chain_behind sound.whole (by rintro _ ⟨⟩; decide), List.cons_append,
      chain_point, chain_behind behind fun char first => (unsigned char first).2, power_chain sound.power]
    simp only [Option.mem_def, Option.some.injEq, forall_eq']
    refine and_congr_left' ?_
    cases places with
    | nil =>
      cases powered : spelling.power with
      | none => exact iff_of_true nofun (.inr ⟨rfl, rfl⟩)
      | some power =>
        have mark := (sound.power power powered).head.1
        refine iff_of_false ?_ ?_
        · intro digit
          exact absurd (digit power.mark rfl) (by simp [mark])
        · rintro (⟨_, _, none, _⟩ | ⟨_, none⟩) <;> cases none
    | cons char places =>
      constructor
      · intro digit
        exact .inl ⟨char, places, rfl, digit char rfl⟩
      · rintro (⟨_, _, ⟨⟩, digit⟩ | ⟨none, _⟩)
        · rintro _ ⟨⟩
          exact digit
        · cases none

theorem leads (sound : spelling.Sound) : Leads spelling.text ↔ Leads spelling.whole := by
  cases begun : spelling.whole with
  | nil =>
    refine iff_of_false ?_ (by rintro ⟨_, _, none, _⟩; cases none)
    rintro ⟨digit, rest, same, isDigit⟩
    rw [text, begun, List.nil_append] at same
    cases placed : spelling.places with
    | none =>
      rw [placed, pointText, List.nil_append] at same
      have other := (power_unsigned sound.power digit (by rw [same]; rfl)).1
      exact absurd isDigit (by simp [other])
    | some places =>
      rw [placed] at same
      cases same
      cases isDigit
  | cons char whole =>
    rw [text, begun]
    constructor
    · rintro ⟨_, _, ⟨⟩, digit⟩
      exact ⟨char, whole, rfl, digit⟩
    · rintro ⟨_, _, ⟨⟩, digit⟩
      exact ⟨char, _, rfl, digit⟩

theorem fractional (sound : spelling.Sound) : spelling.text.any isFractional = true ↔
    spelling.places ≠ none ∨ spelling.power ≠ none := by
  rw [text, List.any_append, List.any_append, Bool.or_eq_true, Bool.or_eq_true]
  have whole : spelling.whole.any isFractional = false :=
    List.any_eq_false.mpr fun char member => by simp [(sound.whole.unmarked member).2.2.2]
  rw [whole]
  cases spelling.places with
  | some places => exact iff_of_true (.inl (.inr rfl)) (.inl nofun)
  | none =>
    cases powered : spelling.power with
    | none => simp [pointText, powerText]
    | some power =>
      refine iff_of_true (.inr ?_) (.inr nofun)
      rw [powerText, Power.text, List.any_cons, (sound.power power powered).head.2.2.2.2.2, Bool.true_or]

/-- Whether parts make a token can be told from their text. -/
theorem strict_iff (sound : spelling.Sound) : spelling.Strict ↔
    Leads spelling.text ∧ spelling.text.IsChain Follows ∧ spelling.text.any isFractional = true := by
  rw [sound.leads, sound.chain, sound.fractional]
  constructor
  · intro strict
    exact ⟨strict.whole, ⟨strict.places, strict.power⟩, strict.fractional⟩
  · rintro ⟨whole, ⟨places, power⟩, fractional⟩
    exact ⟨whole, fractional, places, power⟩

end Spelling.Sound

end Adjacent

/-- A whole number as a token. -/
def IntegerToken (text : List Char) : Prop :=
  Leads text ∧ Digits text

def minus (negative : Bool) : List Char :=
  if negative then ['-'] else []

/-- A number with a fraction or a power of ten as a token, with or without a minus in front of it. -/
def FloatToken (negative : Bool) (number : Decimal) (text : List Char) : Prop :=
  ∃ spelling : Spelling, spelling.Sound ∧ spelling.Strict ∧ spelling.number = number ∧
    text = minus negative ++ spelling.text

def Decimal.value (number : Decimal) : ℚ :=
  number.significand * 10 ^ number.exponent

/-- The text behind a minus. -/
def unsigned : List Char → List Char
  | '-' :: rest => rest
  | text => text

/-- A number's text, which gains a fraction where it would be taken for a whole number. -/
def completed (text : List Char) : List Char :=
  if text.any isFractional then text else text ++ ['.', '0']

section Completion

variable {text : List Char} {spelling : Spelling} {number : Decimal}

theorem unsigned_of_ne (unmarked : text.head? ≠ some '-') : unsigned text = text := by
  unfold unsigned
  split
  · exact absurd rfl unmarked
  · rfl

theorem completed_minus (negative : Bool) (text : List Char) :
    completed (minus negative ++ text) = minus negative ++ completed text := by
  have same : (minus negative ++ text).any isFractional = text.any isFractional := by
    cases negative <;> rfl
  rw [completed, completed, same]
  split
  · rfl
  · exact List.append_assoc ..

theorem leads_completed : Leads (completed text) ↔ Leads text := by
  unfold completed
  split
  · rfl
  · cases text with
    | nil =>
      refine iff_of_false ?_ ?_
      · rintro ⟨_, _, ⟨⟩, digit⟩
        cases digit
      · rintro ⟨_, _, none, _⟩
        cases none
    | cons char text =>
      constructor
      · rintro ⟨_, _, ⟨⟩, digit⟩
        exact ⟨char, text, rfl, digit⟩
      · rintro ⟨_, _, ⟨⟩, digit⟩
        exact ⟨char, _, rfl, digit⟩

theorem FloatToken.leads {negative : Bool} (token : FloatToken negative number text) : Leads (unsigned text) := by
  obtain ⟨spelling, sound, strict, _, rfl⟩ := token
  obtain ⟨digit, rest, same, isDigit⟩ := (sound.strict_iff.mp strict).1
  rw [same]
  cases negative with
  | true => exact ⟨digit, rest, rfl, isDigit⟩
  | false => exact ⟨digit, rest, unsigned_of_ne (by simpa [minus] using digit_ne isDigit rfl), isDigit⟩

theorem count_tenfold (digits : List Char) : Numeral.count (digits ++ ['0']) = 10 * Numeral.count digits := by
  rw [Numeral.count, List.foldl_append]
  rfl

/-- A text that holds nothing but digits becomes a token when it gains a fraction. -/
theorem completed_whole (leads : Leads text) (whole : text.any isFractional = false)
    (read : Numeral.decimal? (plain text) = some number) :
    ∃ spelling : Spelling, spelling.Sound ∧ spelling.Strict ∧ spelling.text = text ++ ['.', '0'] ∧
      spelling.number.value = number.value ∧ text.IsChain Follows := by
  obtain ⟨⟨digits, places, power⟩, sound, same, rfl⟩ := decimal_ok.mp read
  have parts := mt sound.fractional.mpr (by rw [same, whole]; decide)
  simp only [not_or, not_not] at parts
  obtain ⟨rfl, rfl⟩ := parts
  have same : digits = text := by simpa [Spelling.text, Spelling.pointText, Spelling.powerText] using same
  subst same
  have run := sound.whole
  refine ⟨⟨digits, some ['0'], none⟩, ⟨run, ?_, .inr nofun, nofun⟩, ⟨leads, .inl nofun, ?_, nofun⟩, ?_, ?_, run.chain⟩
  · rintro _ ⟨⟩
    exact fun char member => .inl (List.mem_singleton.mp member ▸ rfl)
  · rintro _ ⟨⟩
    exact .inl ⟨'0', [], rfl, rfl⟩
  · simp [Spelling.text, Spelling.pointText, Spelling.powerText]
  · have zero : plain ['0'] = ['0'] := rfl
    have none : plain [] = [] := rfl
    have shifted : (10 : ℚ) * Numeral.count (plain digits) * 10 ^ (-1 : ℤ) = Numeral.count (plain digits) := by
      rw [zpow_neg_one, mul_comm, inv_mul_cancel_left₀ (by norm_num)]
    simpa [Spelling.number, Decimal.value, zero, none, count_tenfold] using shifted

/-- The text of a number that begins with a digit makes a token exactly if its parts may stand behind one
another, and that token stands for the same number. -/
theorem completed_token (leads : Leads text) (read : Numeral.decimal? (plain text) = some number) :
    ((∃ spelling : Spelling, spelling.Sound ∧ spelling.Strict ∧ spelling.text = completed text) ↔ text.IsChain Follows) ∧
    ∀ spelling : Spelling, spelling.Sound → spelling.Strict → spelling.text = completed text →
      spelling.number.value = number.value := by
  cases fractional : text.any isFractional with
  | true =>
    have same : completed text = text := if_pos fractional
    rw [same]
    refine ⟨?_, ?_⟩
    · constructor
      · rintro ⟨spelling, sound, strict, rfl⟩
        exact (sound.strict_iff.mp strict).2.1
      · intro chain
        obtain ⟨spelling, sound, rfl, _⟩ := decimal_ok.mp read
        exact ⟨spelling, sound, sound.strict_iff.mpr ⟨leads, chain, fractional⟩, rfl⟩
    · rintro spelling sound _ rfl
      rw [Option.some.inj ((decimal_ok.mpr ⟨spelling, sound, rfl, rfl⟩).symm.trans read)]
  | false =>
    have same : completed text = text ++ ['.', '0'] := if_neg (by simp [fractional])
    obtain ⟨whole, sound, strict, written, value, chain⟩ := completed_whole leads fractional read
    rw [same]
    refine ⟨iff_of_true ⟨whole, sound, strict, written⟩ chain, ?_⟩
    intro spelling sound' _ written'
    have first := decimal_ok.mpr ⟨whole, sound, written, rfl⟩
    have again := decimal_ok.mpr ⟨spelling, sound', written', rfl⟩
    rw [← value, Option.some.inj (first.symm.trans again)]

theorem digit_toLower {char : Char} (digit : char.isDigit = true) : char.toLower = char := by
  refine Char.toLower_eq_of_not_isUpper fun upper => ?_
  simp only [Char.isDigit, Char.isUpper, Bool.and_eq_true, decide_eq_true_eq, ge_iff_le, UInt32.le_iff_toNat_le,
    Char.toNat_val] at digit upper
  exact absurd (upper.1.trans digit.2) (by decide)

/-- Behind a minus or without one, a text that begins with a digit is read for a finite number. -/
theorem ofChars_leads (negative : Bool) (leads : Leads text) :
    Numeral.ofChars? (plain (minus negative ++ text)) =
      (Numeral.decimal? (plain text)).map (.finite negative) := by
  obtain ⟨digit, rest, rfl, isDigit⟩ := leads
  have shown : digit ≠ '_' := digit_ne isDigit rfl
  have signed : Numeral.signed (plain (minus negative ++ digit :: rest)) = (negative, plain (digit :: rest)) := by
    cases negative with
    | true =>
      rw [plain_append]
      rfl
    | false =>
      refine signed_unsigned fun char first => ?_
      rw [minus, if_neg nofun, List.nil_append, plain_cons shown] at first
      cases first
      exact ⟨digit_ne isDigit rfl, digit_ne isDigit rfl⟩
  have lower : digit.toLower ≠ 'i' ∧ digit.toLower ≠ 'n' := by
    rw [digit_toLower isDigit]
    exact ⟨digit_ne isDigit rfl, digit_ne isDigit rfl⟩
  have unlike {word : String} (first : word.toList.head? ≠ some digit.toLower) :
      String.ofList ((plain (digit :: rest)).map Char.toLower) ≠ word := by
    rintro rfl
    rw [plain_cons shown] at first
    exact first (by simp)
  simp only [Numeral.ofChars?, signed]
  rw [if_neg, if_neg]
  · exact unlike (by simp [lower.2.symm])
  · exact fun same => same.elim (unlike (by simp [lower.1.symm])) (unlike (by simp [lower.1.symm]))

/-- A minus in front of a token can only be one that the text has. -/
theorem exists_minus (text : List Char) : ∃ negative, text = minus negative ++ unsigned text ∧
    ∀ other token, Leads token → completed text = minus other ++ token →
      other = negative ∧ token = completed (unsigned text) := by
  by_cases begins : text.head? = some '-'
  · obtain ⟨rest, rfl⟩ := List.head?_eq_some_iff.mp begins
    refine ⟨true, rfl, fun other token leads same => ?_⟩
    rw [show '-' :: rest = minus true ++ rest from rfl, completed_minus] at same
    cases other with
    | true => exact ⟨rfl, (List.append_cancel_left same).symm⟩
    | false =>
      obtain ⟨digit, _, rfl, isDigit⟩ := leads
      exact absurd (List.cons.inj same).1.symm (digit_ne isDigit rfl)
  · rw [unsigned_of_ne begins]
    refine ⟨false, rfl, fun other token _ same => ?_⟩
    cases other with
    | false => exact ⟨rfl, same.symm⟩
    | true =>
      cases text with
      | nil => cases same
      | cons char text =>
        have first : char = '-' := by
          unfold completed at same
          split at same <;> exact (List.cons.inj same).1
        exact absurd (congrArg some first) begins

/-- What a text needs so that its number makes a token: behind its minus it begins with a digit, a point has
nothing but digits behind it, and no low line stands in front of a sign. -/
def Tokenlike (text : List Char) : Prop :=
  Leads (unsigned text) ∧ (unsigned text).IsChain Follows

theorem float_token {numeral : Numeral} (read : Numeral.ofChars? (plain text) = some numeral) :
    ((∃ negative number, FloatToken negative number (completed text)) ↔ Tokenlike text) ∧
      ∀ negative number, FloatToken negative number (completed text) →
        ∃ source, numeral = .finite negative source ∧ source.value = number.value := by
  obtain ⟨negative, parts, alone⟩ := exists_minus text
  have finite (leads : Leads (unsigned text)) :
      ∃ source, Numeral.decimal? (plain (unsigned text)) = some source ∧ numeral = .finite negative source := by
    rw [parts, ofChars_leads negative leads, Option.map_eq_some_iff] at read
    obtain ⟨source, found, same⟩ := read
    exact ⟨source, found, same.symm⟩
  have token {other : Bool} {number : Decimal} (token : FloatToken other number (completed text)) :
      other = negative ∧ Leads (unsigned text) ∧ ∃ spelling : Spelling, spelling.Sound ∧ spelling.Strict ∧
        spelling.number = number ∧ spelling.text = completed (unsigned text) := by
    obtain ⟨spelling, sound, strict, value, same⟩ := token
    have leads := (sound.strict_iff.mp strict).1
    obtain ⟨rfl, written⟩ := alone other spelling.text leads same
    exact ⟨rfl, leads_completed.mp (written ▸ leads), spelling, sound, strict, value, written⟩
  refine ⟨?_, ?_⟩
  · constructor
    · rintro ⟨_, _, made⟩
      obtain ⟨_, leads, spelling, sound, strict, _, written⟩ := token made
      obtain ⟨source, found, _⟩ := finite leads
      exact ⟨leads, (completed_token leads found).1.mp ⟨spelling, sound, strict, written⟩⟩
    · rintro ⟨leads, chain⟩
      obtain ⟨source, found, _⟩ := finite leads
      obtain ⟨spelling, sound, strict, written⟩ := (completed_token leads found).1.mpr chain
      refine ⟨negative, spelling.number, spelling, sound, strict, rfl, ?_⟩
      rw [written, ← completed_minus, ← parts]
  · intro other number made
    obtain ⟨rfl, leads, spelling, sound, strict, rfl, written⟩ := token made
    obtain ⟨source, found, same⟩ := finite leads
    exact ⟨source, same, ((completed_token leads found).2 spelling sound strict written).symm⟩

end Completion

namespace Literal

/-- Literals of whole numbers make tokens unless they begin with a low line, and those of other numbers
make tokens, which stand for the same number, exactly if their text is like that of one. -/
theorem numeric_token_iff {value : Literal} {code : String} (accepted : value.code = .ok code) :
    (value.kind = .int → code = value.text ∧
      (IntegerToken code.toList ↔ value.text.toList.head? ≠ some '_')) ∧
    (value.kind = .float →
      ((∃ negative number, FloatToken negative number code.toList) ↔ Tokenlike value.text.toList) ∧
      ∀ negative number, FloatToken negative number code.toList →
        ∃ source, Numeral.ofChars? (plain value.text.toList) = some (.finite negative source) ∧
          source.value = number.value) := by
  obtain ⟨kind, text⟩ := value
  cases kind with
  | int =>
    refine ⟨fun _ => ?_, nofun⟩
    simp only [Literal.code] at accepted
    split at accepted
    next counted =>
      have run : Digits text.toList := by
        intro char member
        simpa using List.all_eq_true.mp counted.2 char member
      obtain ⟨char, rest, same⟩ := List.exists_cons_of_ne_nil counted.1
      have first := run char (by rw [same]; exact List.mem_cons_self)
      refine ⟨(Except.ok.inj accepted).symm, ?_⟩
      rw [← Except.ok.inj accepted, IntegerToken, and_iff_left run, same]
      constructor
      · rintro ⟨_, _, ⟨⟩, digit⟩ low
        cases low
        cases digit
      · intro shown
        exact ⟨char, rest, rfl, first.resolve_right fun low => shown (congrArg some low)⟩
    next => cases accepted
  | float =>
    refine ⟨nofun, fun _ => ?_⟩
    simp only [Literal.code] at accepted
    split at accepted
    next => cases accepted
    next odd =>
      obtain ⟨numeral, read⟩ := Option.ne_none_iff_exists'.mp (by simpa using odd)
      have written : code.toList = completed text.toList := by
        unfold completed
        split at accepted
        next fractional =>
          cases accepted
          exact (if_pos fractional).symm
        next whole =>
          cases accepted
          rw [String.toList_append]
          exact (if_neg whole).symm
      obtain ⟨made, same⟩ := float_token read
      rw [written]
      refine ⟨made, fun negative number token => ?_⟩
      obtain ⟨source, rfl, value⟩ := same negative number token
      exact ⟨source, read, value⟩
  | verbatim | bool | str | char => exact ⟨nofun, nofun⟩

theorem thousands_and_half : Literal.code ⟨.float, "-1_000.5"⟩ = .ok "-1_000.5" ∧
    ∃ negative number, FloatToken negative number "-1_000.5".toList := by
  have accepted : Literal.code ⟨.float, "-1_000.5"⟩ = .ok "-1_000.5" := by decide +kernel
  refine ⟨accepted, ((numeric_token_iff accepted).2 rfl).1.mpr ⟨⟨'1', "_000.5".toList, rfl, rfl⟩, by decide⟩⟩

/-- Texts that begin with a low line, with a point or with a letter are accepted, and none of them is a token. -/
theorem odd_numerals_accepted :
    (Literal.code ⟨.int, "_1"⟩ = .ok "_1" ∧ ¬ IntegerToken "_1".toList) ∧
    (Literal.code ⟨.float, ".5"⟩ = .ok ".5" ∧ ∀ negative number, ¬ FloatToken negative number ".5".toList) ∧
    Literal.code ⟨.float, "inf"⟩ = .ok "inf.0" ∧ ∀ negative number, ¬ FloatToken negative number "inf.0".toList := by
  refine ⟨⟨rfl, ?_⟩, ⟨by decide +kernel, ?_⟩, by decide +kernel, ?_⟩
  · rintro ⟨⟨_, _, ⟨⟩, digit⟩, _⟩
    cases digit
  · intro negative number token
    obtain ⟨_, _, ⟨⟩, digit⟩ := token.leads
    cases digit
  · intro negative number token
    obtain ⟨_, _, ⟨⟩, digit⟩ := token.leads
    cases digit

end Literal

end Lowering
