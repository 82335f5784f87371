import Lowering.Parameter
import Lowering.Proofs.Openings
import Lowering.Proofs.SharedArguments

/-! The two sides of a call. A function says in its parameters how it gets hold of each value, and
the text of an argument shows how the value is handed over; either text tells the ways apart. -/

namespace Lowering

/-- How a function gets hold of a value: by a reference to it, by the only one through which the
value may be changed, or by having it for its own. -/
inductive Passing where
  | shared
  | exclusive
  | owned
deriving DecidableEq

def Accessor.passing : Accessor → Passing
  | look => .shared
  | mutate => .exclusive
  | move | copy => .owned

namespace Passing

/-- A parameter that gets hold of its value this way. -/
def parameter (passing : Passing) (name type : String) : String :=
  match passing with
  | shared => name ++ ": &" ++ type
  | exclusive => name ++ ": &mut " ++ type
  | owned => "mut " ++ name ++ ": " ++ type

/-- The text is that of a parameter, of some name and some type, that gets hold of its value this way. -/
def Declares (passing : Passing) (text : String) : Prop :=
  ∃ name word tree type, Name.code name = .ok word ∧ DeclaredType.code tree = .ok type ∧
    text = passing.parameter word type

end Passing

/-- No name has a colon in it, which is where it ends in a parameter. -/
theorem Name.code_without_colon {name word : String} (spelled : Name.code name = .ok word) : ':' ∉ word.toList := by
  unfold Name.code at spelled
  split at spelled
  next valid =>
    cases spelled
    unfold Name.isValid at valid
    split at valid
    next => cases valid
    next first rest same =>
      obtain ⟨begins, letters⟩ := Bool.and_eq_true_iff.mp valid
      rw [String.toList_append, same]
      intro member
      rcases List.mem_append.mp member with mark | inName
      · exact absurd mark (by decide)
      · rcases List.mem_cons.mp inName with rfl | inRest
        · exact absurd begins (by decide)
        · exact absurd (List.all_eq_true.mp letters _ inRest) (by decide)
  next => cases spelled

namespace Passing

private theorem behind_name {name word : String} (spelled : Name.code name = .ok word) (type : List Char) :
    (word.toList ++ ':' :: type).dropWhile (· != ':') = ':' :: type := by
  rw [List.dropWhile_append_of_pos]
  · rfl
  · intro char member
    exact bne_iff_ne.mpr fun same => Name.code_without_colon spelled (same ▸ member)

private theorem shared_unlike_exclusive {text : String} (lent : Declares .shared text) : ¬ Declares .exclusive text := by
  obtain ⟨_, word, _, type, spelled, typed, rfl⟩ := lent
  rintro ⟨_, word', _, type', spelled', _, same⟩
  have types := congrArg (fun text : String => text.toList.dropWhile (· != ':')) same
  obtain ⟨char, rest, opens, _, noWord⟩ := DeclaredType.code_bare typed
  simp [parameter, behind_name spelled, behind_name spelled', opens] at types
  exact noWord types.1

private theorem Declares.bare {passing : Passing} {text : String} (declared : Declares passing text)
    (lent : passing ≠ .owned) : Bare text := by
  obtain ⟨_, word, _, type, spelled, _, rfl⟩ := declared
  have bare := Name.code_bare spelled
  cases passing with
  | shared => exact (bare.append ": &").append type
  | exclusive => exact (bare.append ": &mut ").append type
  | owned => exact absurd rfl lent

private theorem owned_not_bare {text : String} (owned : Declares .owned text) : ¬ Bare text := by
  obtain ⟨_, word, _, type, _, _, rfl⟩ := owned
  rintro ⟨char, rest, opens, _, noWord⟩
  simp [parameter] at opens
  exact noWord opens.1.symm

/-- The text of a parameter tells how the function gets hold of the value. -/
theorem Declares.unique {one other : Passing} {text : String} (declared : Declares one text)
    (again : Declares other text) : one = other := by
  -- The first character sets an owned value apart; the two references differ only behind the colon.
  cases one <;> cases other
  case shared.shared | exclusive.exclusive | owned.owned => rfl
  case shared.exclusive => exact absurd again (shared_unlike_exclusive declared)
  case exclusive.shared => exact absurd declared (shared_unlike_exclusive again)
  case shared.owned | exclusive.owned => exact absurd (declared.bare nofun) (owned_not_bare again)
  case owned.shared | owned.exclusive => exact absurd (again.bare nofun) (owned_not_bare declared)

end Passing

theorem Parameter.code_declares {parameter : Parameter} {text : String} (written : parameter.code = .ok text) :
    parameter.accessor.passing.Declares text := by
  obtain ⟨word, spelled, written⟩ := except_bind_ok.mp written
  obtain ⟨type, typed, written⟩ := except_bind_ok.mp written
  refine ⟨parameter.name, word, parameter.type, type, spelled, typed, ?_⟩
  cases accessor : parameter.accessor <;> simp only [accessor] at written <;> cases written <;> rfl

namespace Expr

variable (signatures : Signatures)

/-- The text of storage: a place, or what a variable refers to if it holds a reference. -/
inductive Place (before : Work) : Expr → String → Prop where
  | named {expr text after} (stored : expr.isStored = true)
    (own : ∀ name binding, expr = identifier name → before.scope.find? name = some binding → binding.isLoan = false)
    (ran : expr.code signatures .place before = (.ok text, after)) : Place before expr text
  | referent {name binding word} (found : before.scope.find? name = some binding) (loan : binding.isLoan = true)
    (spelled : Name.code name = .ok word) : Place before (identifier name) ("*" ++ word)

/-- The text of a value of its own: one that is stored nowhere, or a duplicate of one that is. -/
inductive Temporary (before : Work) : Expr → String → Prop where
  | value {expr text after} (unstored : expr.isStored = false)
    (ran : expr.code signatures .value before = (.ok text, after)) :
    Temporary before expr (if expr.isChain then "(" ++ text ++ ")" else text)
  | duplicate {expr text after} (stored : expr.isStored = true)
    (ran : expr.code signatures .value before = (.ok text, after)) : Temporary before expr (text ++ ".clone()")

/-- The text that hands the value of an expression over so that a function gets hold of it this way. A
variable that is handed over as it is has been given away behind the call. -/
inductive Hands (before after : Work) : Passing → Expr → String → Prop where
  | exclusive {expr text} (operand : Place signatures before expr text ∨ Temporary signatures before expr text) :
    Hands before after .exclusive expr ("&mut " ++ text)
  | shared {expr text} (operand : Place signatures before expr text ∨ Temporary signatures before expr text)
    (unlike : ¬ "&mut ".toList <+: ("&" ++ text).toList) : Hands before after .shared expr ("&" ++ text)
  | temporary {expr text} (value : Temporary signatures before expr text) : Hands before after .owned expr text
  | moved {name word binding} (spelled : Name.code name = .ok word)
    (found : after.scope.find? name = some binding) (given : binding.moved = true) :
    Hands before after .owned (identifier name) word

variable {signatures} {before after : Work} {expr : Expr} {text : String}

theorem Place.bare (place : Place signatures before expr text) (plain : expr.Plain) : Bare text := by
  cases place with
  | named _ _ ran => exact code_bare plain ⟨_, _, ran⟩
  | referent _ _ _ => exact (Bare.opening "*" rfl).append _

theorem Temporary.bare (temporary : Temporary signatures before expr text) (plain : expr.Plain) : Bare text := by
  cases temporary with
  | value _ ran =>
    split
    · exact ((Bare.opening "(" rfl).append _).append ")"
    · exact code_bare plain ⟨_, _, ran⟩
  | duplicate _ ran => exact (code_bare plain ⟨_, _, ran⟩).append ".clone()"

private theorem not_bare_of_reference {text : String} {rest : List Char} (reference : text.toList = '&' :: rest) :
    ¬ Bare text := by
  rintro ⟨char, rest, opens, noReference, _⟩
  rw [reference] at opens
  exact noReference (List.cons.inj opens).1.symm

/-- No reference to what such a text stands for is taken for one through which it may be changed. -/
private theorem shared_unlike {text : String} (bare : Bare text) : ¬ "&mut ".toList <+: ("&" ++ text).toList := by
  obtain ⟨char, rest, opens, _, noWord⟩ := bare
  rintro ⟨more, same⟩
  simp [opens] at same
  exact noWord same.1.symm

private theorem Hands.owned_bare (hands : Hands signatures before after .owned expr text) (plain : expr.Plain) :
    Bare text := by
  cases hands with
  | temporary value => exact value.bare plain
  | moved spelled _ _ => exact Name.code_bare spelled

private theorem Hands.lent_not_bare {passing : Passing} (hands : Hands signatures before after passing expr text)
    (lent : passing ≠ .owned) : ¬ Bare text := by
  cases hands with
  | exclusive _ => exact not_bare_of_reference String.toList_append
  | shared _ _ => exact not_bare_of_reference String.toList_append
  | temporary _ | moved _ _ _ => exact absurd rfl lent

private theorem Hands.shared_not_exclusive (hands : Hands signatures before after .shared expr text) :
    ¬ Hands signatures before after .exclusive expr text := by
  have mutable : Hands signatures before after .exclusive expr text → "&mut ".toList <+: text.toList := by
    rintro ⟨_⟩
    exact ⟨_, String.toList_append.symm⟩
  cases hands with
  | shared _ unlike => exact fun again => unlike (mutable again)

/-- The text of an argument tells how the value is handed over. -/
theorem Hands.unique {one other : Passing} (hands : Hands signatures before after one expr text)
    (again : Hands signatures before after other expr text) (plain : expr.Plain) : one = other := by
  -- The first character sets an owned value apart; the two references differ only in their mark.
  cases one <;> cases other
  case shared.shared | exclusive.exclusive | owned.owned => rfl
  case shared.exclusive => exact absurd again hands.shared_not_exclusive
  case exclusive.shared => exact absurd hands again.shared_not_exclusive
  case shared.owned | exclusive.owned => exact absurd (again.owned_bare plain) (hands.lent_not_bare nofun)
  case owned.shared | owned.exclusive => exact absurd (hands.owned_bare plain) (again.lent_not_bare nofun)

/-- A temporary value is handed over as the parameter wants it. -/
theorem handOver_hands (expected : Accessor) (temporary : Temporary signatures before expr text) (plain : expr.Plain) :
    Hands signatures before after expected.passing expr (handOver expected text) := by
  cases expected with
  | look => exact .shared (.inr temporary) (shared_unlike (temporary.bare plain))
  | mutate => exact .exclusive (.inr temporary)
  | move | copy => exact .temporary temporary

private theorem place_hands (place : Place signatures before expr text) (plain : expr.Plain) :
    Hands signatures before after .shared expr ("&" ++ text) :=
  .shared (.inl place) (shared_unlike (place.bare plain))

variable {function root : String} {parameter : String × Accessor} {later : Work}

/-- A variable is written out as it is where it owns its value, and seen through where it does not. -/
private theorem identifier_place {name loanMark mark : String} {binding : Binding} (marks : loanMark = mark ++ "*")
    (held : before.scope.readable name = .ok binding)
    (ran : (if binding.isLoan = true then do return loanMark ++ (← Name.code name)
      else do return mark ++ (← (identifier name).code signatures .place) : Action String) before = (.ok text, later)) :
    ∃ place, Place signatures before (identifier name) place ∧ text = mark ++ place := by
  have found := (Scope.readable_ok.mp held).1
  split at ran
  next loan =>
    obtain ⟨word, _, written, ran⟩ := bind_ok.mp ran
    obtain ⟨spelled, rfl⟩ := lift_ok.mp written
    obtain ⟨rfl, _⟩ := pure_ok.mp ran
    exact ⟨"*" ++ word, .referent found loan spelled, by rw [marks, String.append_assoc]⟩
  next owner =>
    obtain ⟨place, _, written, ran⟩ := bind_ok.mp ran
    obtain ⟨rfl, _⟩ := pure_ok.mp ran
    refine ⟨place, .named rfl ?_ written, rfl⟩
    rintro _ other ⟨⟩ there
    cases found.symm.trans there
    simpa using owner

private theorem lend_place (stored : expr.isStored = true)
    (ran : expr.lend (fun form => expr.code signatures form) before = (.ok text, later)) :
    ∃ place, Place signatures before expr place ∧ text = "&" ++ place := by
  cases expr with
  | identifier name =>
    obtain ⟨binding, _, read, ran⟩ := bind_ok.mp ran
    obtain ⟨held, rfl⟩ := Action.inspect_ok.mp read
    exact identifier_place rfl held ran
  | _ =>
    simp only [lend, stored, if_true] at ran
    obtain ⟨place, _, written, ran⟩ := bind_ok.mp ran
    obtain ⟨rfl, _⟩ := pure_ok.mp ran
    exact ⟨place, .named stored (by simp) written, rfl⟩

private theorem mutate_place (stored : expr.isStored = true) (rooted : expr.root? = some root)
    (ran : expr.passStored function parameter .mutate root (fun form => expr.code signatures form) before =
      (.ok text, later)) : ∃ place, Place signatures before expr place ∧ text = "&mut " ++ place := by
  cases expr with
  | identifier name =>
    cases rooted
    simp only [passStored, bind_map_left] at ran
    obtain ⟨binding, _, read, ran⟩ := bind_ok.mp ran
    obtain ⟨held, rfl⟩ := Action.inspect_ok.mp read
    exact identifier_place rfl held ran
  | _ =>
    simp only [passStored, pure_bind] at ran
    obtain ⟨place, _, written, ran⟩ := bind_ok.mp ran
    obtain ⟨rfl, _⟩ := pure_ok.mp ran
    exact ⟨place, .named stored (by simp) written, rfl⟩

private theorem copy_duplicate (stored : expr.isStored = true)
    (ran : expr.passStored function parameter .copy root (fun form => expr.code signatures form) before =
      (.ok text, later)) : ∃ copied, Temporary signatures before expr copied ∧ text = handOver parameter.2 copied := by
  have written : ∃ value work, expr.code signatures .value before = (.ok value, work) ∧
      handOver parameter.2 (value ++ ".clone()") = text := by
    cases expr with
    | identifier name =>
      simp only [passStored, bind_map_left] at ran
      obtain ⟨_, _, read, ran⟩ := bind_ok.mp ran
      obtain ⟨_, rfl⟩ := Action.inspect_ok.mp read
      obtain ⟨value, work, written, ran⟩ := bind_ok.mp ran
      exact ⟨value, work, written, (pure_ok.mp ran).1⟩
    | _ =>
      simp only [passStored, pure_bind] at ran
      obtain ⟨value, work, written, ran⟩ := bind_ok.mp ran
      exact ⟨value, work, written, (pure_ok.mp ran).1⟩
  obtain ⟨value, _, written, rfl⟩ := written
  exact ⟨_, .duplicate stored written, rfl⟩

private theorem look_lends
    (ran : expr.passStored function parameter .look root (fun form => expr.code signatures form) before =
      (.ok text, later)) : expr.lend (fun form => expr.code signatures form) before = (.ok text, later) := by
  cases expr with
  | identifier name =>
    simp only [passStored, bind_map_left] at ran
    obtain ⟨_, _, read, ran⟩ := bind_ok.mp ran
    obtain ⟨_, rfl⟩ := Action.inspect_ok.mp read
    exact ran
  | _ => simpa only [passStored, pure_bind] using ran

private theorem move_names (rooted : expr.root? = some root)
    (ran : expr.passStored function parameter .move root (fun form => expr.code signatures form) before =
      (.ok text, later)) : expr = identifier root ∧ Name.code root = .ok text := by
  cases expr with
  | identifier name =>
    cases rooted
    simp only [passStored, bind_map_left] at ran
    obtain ⟨_, _, _, ran⟩ := bind_ok.mp ran
    exact ⟨rfl, (lift_ok.mp ran).1⟩
  | _ =>
    simp only [passStored, pure_bind] at ran
    exact (throw_ok ran).elim

/-- What is stored is handed over as the parameter wants it, since the call says so or duplicates it. -/
private theorem passStored_hands {accessor : Accessor} (rooted : expr.root? = some root) (plain : expr.Plain)
    (fits : accessor = parameter.2 ∨ accessor = .copy)
    (given : accessor = .move → ∃ binding, after.scope.find? root = some binding ∧ binding.moved = true)
    (ran : expr.passStored function parameter accessor root (fun form => expr.code signatures form) before =
      (.ok text, later)) : Hands signatures before after parameter.2.passing expr text := by
  have stored : expr.isStored = true := by rw [isStored, rooted, Option.isSome_some]
  cases accessor with
  | copy =>
    obtain ⟨copied, duplicate, rfl⟩ := copy_duplicate stored ran
    exact handOver_hands parameter.2 duplicate plain
  | look =>
    rw [← fits.resolve_right (by simp)]
    obtain ⟨place, holds, rfl⟩ := lend_place stored (look_lends ran)
    exact place_hands holds plain
  | mutate =>
    rw [← fits.resolve_right (by simp)]
    obtain ⟨place, holds, rfl⟩ := mutate_place stored rooted ran
    exact .exclusive (.inl holds)
  | move =>
    rw [← fits.resolve_right (by simp)]
    obtain ⟨rfl, spelled⟩ := move_names rooted ran
    obtain ⟨binding, found, gone⟩ := given rfl
    exact .moved spelled found gone

/-- An argument is handed over as its parameter wants it. What is stored is given under the accessor of
the parameter, or else duplicated. -/
theorem argument_hands {argument : Accessor × Expr}
    (alone : StandsAlone signatures function before (parameter, argument) text)
    (given : ∀ root, argument.1 = .move → argument.2.root? = some root →
      ∃ binding, after.scope.find? root = some binding ∧ binding.moved = true) :
    (argument.2.isStored = true → argument.1 = parameter.2 ∨ argument.1 = .copy) ∧
      (argument.2.Plain → Hands signatures before after parameter.2.passing argument.2 text) := by
  obtain ⟨accessor, expr⟩ := argument
  obtain ⟨later, ran⟩ := alone
  simp only [argumentCode, pass] at ran
  cases rooted : expr.root? with
  | none =>
    have unstored : expr.isStored = false := by rw [isStored, rooted, Option.isSome_none]
    simp only [rooted] at ran
    obtain ⟨value, _, written, ran⟩ := bind_ok.mp ran
    obtain ⟨rfl, _⟩ := pure_ok.mp ran
    exact ⟨fun stored => absurd (unstored.symm.trans stored) Bool.false_ne_true,
      handOver_hands parameter.2 (.value unstored written)⟩
  | some root =>
    simp only [rooted] at ran
    split at ran
    next =>
      obtain ⟨_, _, thrown, _⟩ := bind_ok.mp ran
      exact (throw_ok thrown).elim
    next refused =>
      have fits : accessor = parameter.2 ∨ accessor = .copy := by
        by_contra other
        exact refused (not_or.mp other)
      obtain ⟨passed, _, stored, ran⟩ := bind_ok.mp ran
      obtain ⟨_, _, _, ran⟩ := bind_ok.mp ran
      obtain ⟨rfl, _⟩ := pure_ok.mp ran
      exact ⟨fun _ => fits, fun plain => passStored_hands rooted plain fits (fun moves => given root moves rooted) stored⟩

end Expr

end Lowering
