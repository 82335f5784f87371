import Mathlib
import Lowering.Proofs.ScopeGrowth

/-! Arguments of one call that share a variable. The arguments are checked one after the other, and
all that the scope remembers of the earlier ones is what they gave away. So two of them may well
refer to one variable, even where one is to change it. -/

namespace Lowering

namespace Expr

/-- The uses of one argument: those within it, and then that of the variable it hands over. -/
def passUses (argument : Accessor × Expr) : List Use :=
  argument.2.uses ++ argument.2.root?.toList.map (.pass · argument.1)

theorem argumentUses_eq (arguments : List (Accessor × Expr)) :
    argumentUses arguments = arguments.flatMap passUses := by
  induction arguments with
  | nil => rfl
  | cons argument rest ih => rw [argumentUses, List.flatMap_cons, ih, passUses]

/-- No variable that the later argument uses is given away by the earlier one. -/
def Spares (earlier later : Accessor × Expr) : Prop :=
  ∀ use ∈ passUses later, .pass use.name .move ∉ passUses earlier

section Calls

variable (signatures : Signatures) (function : String)

/-- Writes out an argument for its parameter. -/
def argumentCode (parameter : String × Accessor) (argument : Accessor × Expr) : Action String :=
  argument.2.pass function parameter argument.1 fun form => code signatures form argument.2

/-- The argument can be written out where nothing but the code before the call has been looked at. -/
def StandsAlone (before : Work) (entry : (String × Accessor) × Accessor × Expr) (text : String) : Prop :=
  ∃ after, argumentCode signatures function entry.1 entry.2 before = (.ok text, after)

variable {signatures function}

theorem argumentCode_repeats (parameter : String × Accessor) (argument : Accessor × Expr) :
    (argumentCode signatures function parameter argument).Repeats
      (argumentCode signatures function parameter argument) ((passUses argument).map .use) := by
  simp only [passUses, List.map_append, List.map_map]
  exact pass_repeats rfl fun form => code_repeats (.refl signatures) form argument.2

/-- The uses of an argument are carried out behind those of another one exactly if they are at the
start, and the other one has given away nothing that they need. -/
theorem passUses_behind {before after : Scope} {earlier : Accessor × Expr} (later : Accessor × Expr)
    (ran : before.run ((passUses earlier).map .use) = .ok after) :
    (∃ last, after.run ((passUses later).map .use) = .ok last) ↔
      Spares earlier later ∧ ∃ last, before.run ((passUses later).map .use) = .ok last := by
  have whole : (∃ last, after.run ((passUses later).map .use) = .ok last) ↔
      ∃ last, before.run ((passUses earlier ++ passUses later).map .use) = .ok last := by
    simp only [List.map_append, Scope.run_append, ran, Except.ok.injEq, exists_eq_left']
  obtain ⟨admitted, apart⟩ := Scope.run_uses_iff.mp ⟨_, ran⟩
  rw [whole, Scope.run_uses_iff, Scope.run_uses_iff, List.forall_mem_append, List.pairwise_append]
  constructor
  · rintro ⟨⟨_, admits⟩, _, apart', spared⟩
    exact ⟨fun use member given => spared _ given use member rfl, admits, apart'⟩
  · rintro ⟨spared, admits, apart'⟩
    refine ⟨⟨admitted, admits⟩, apart, apart', ?_⟩
    rintro use member other inLater rfl
    exact spared other inLater member

/-- An argument behind another one is written out as it is alone, unless the other one has given
away what it uses. -/
theorem standsAlone_behind {before after : Work} {text later : String} {parameter : String × Accessor}
    {argument : Accessor × Expr} (entry : (String × Accessor) × Accessor × Expr)
    (passed : argumentCode signatures function parameter argument before = (.ok text, after)) :
    StandsAlone signatures function after entry later ↔
      Spares argument entry.2 ∧ StandsAlone signatures function before entry later := by
  have ran := (argumentCode_repeats parameter argument _ _ _ passed).1
  have alike := (Scope.uses_keep ran).alike
  have behind := passUses_behind entry.2 ran
  constructor
  · rintro ⟨last, written⟩
    obtain ⟨taken, answers⟩ := argumentCode_repeats entry.1 entry.2 _ _ _ written
    obtain ⟨spared, reached, alone⟩ := behind.mp ⟨_, taken⟩
    obtain ⟨finished, same, _⟩ := answers before reached alike.symm alone
    exact ⟨spared, finished, same⟩
  · rintro ⟨spared, last, written⟩
    obtain ⟨taken, answers⟩ := argumentCode_repeats entry.1 entry.2 _ _ _ written
    obtain ⟨reached, follows⟩ := behind.mpr ⟨spared, _, taken⟩
    obtain ⟨finished, same, _⟩ := answers after reached alike follows
    exact ⟨finished, same⟩

theorem argumentCodes_iff {parameters : List (String × Accessor)} {arguments : List (Accessor × Expr)}
    (counted : parameters.length = arguments.length) (before : Work) (texts : List String) :
    (∃ after, argumentCodes signatures function parameters arguments before = (.ok texts, after)) ↔
      List.Forall₂ (StandsAlone signatures function before) (parameters.zip arguments) texts ∧
        arguments.Pairwise Spares := by
  induction arguments generalizing parameters before texts with
  | nil =>
    cases List.length_eq_zero_iff.mp counted
    simp only [argumentCodes, pure_ok, List.zip_nil_right, List.forall₂_nil_left_iff, List.Pairwise.nil,
      and_true]
    exact ⟨fun ⟨_, same, _⟩ => same.symm, fun same => ⟨before, same.symm, rfl⟩⟩
  | cons argument arguments ih =>
    obtain ⟨parameter, parameters, rfl⟩ := List.exists_cons_of_length_eq_add_one counted
    have fewer : parameters.length = arguments.length := by simpa using counted
    have split : (∃ after, argumentCodes signatures function (parameter :: parameters) (argument :: arguments)
        before = (.ok texts, after)) ↔ ∃ text rest middle, texts = text :: rest ∧
          argumentCode signatures function parameter argument before = (.ok text, middle) ∧
          ∃ after, argumentCodes signatures function parameters arguments middle = (.ok rest, after) := by
      simp only [argumentCodes, bind_ok, pure_ok]
      constructor
      · rintro ⟨after, text, middle, first, rest, _, later, rfl, rfl⟩
        exact ⟨text, rest, middle, rfl, first, _, later⟩
      · rintro ⟨text, rest, middle, rfl, first, after, later⟩
        exact ⟨after, text, middle, first, rest, after, later, rfl, rfl⟩
    have behind {text : String} {middle : Work} (rest : List String)
        (first : argumentCode signatures function parameter argument before = (.ok text, middle)) :
        List.Forall₂ (StandsAlone signatures function middle) (parameters.zip arguments) rest ↔
          (∀ later ∈ arguments, Spares argument later) ∧
            List.Forall₂ (StandsAlone signatures function before) (parameters.zip arguments) rest := by
      have entries : (∀ entry ∈ parameters.zip arguments, Spares argument entry.2) ↔
          ∀ later ∈ arguments, Spares argument later := by
        rw [← List.forall_mem_map (f := Prod.snd), List.map_snd_zip (Nat.le_of_eq fewer.symm)]
      have each : StandsAlone signatures function middle = fun entry text =>
          Spares argument entry.2 ∧ StandsAlone signatures function before entry text :=
        funext fun entry => funext fun _ => propext (standsAlone_behind entry first)
      rw [each, List.forall₂_and_left, entries]
    rw [split, List.zip_cons_cons, List.forall₂_cons_left_iff, List.pairwise_cons]
    constructor
    · rintro ⟨text, rest, middle, rfl, first, later⟩
      obtain ⟨alone, apart⟩ := (ih fewer middle rest).mp later
      obtain ⟨spared, alone⟩ := (behind rest first).mp alone
      exact ⟨⟨text, rest, ⟨middle, first⟩, alone, rfl⟩, spared, apart⟩
    · rintro ⟨⟨text, rest, ⟨middle, first⟩, alone, rfl⟩, spared, apart⟩
      have later := (ih fewer middle rest).mpr ⟨(behind rest first).mpr ⟨spared, alone⟩, apart⟩
      exact ⟨text, rest, middle, rfl, first, later⟩

/-- The text of a call is that of the function's name and those of the arguments. -/
theorem call_ok {arguments : List (Accessor × Expr)} {form : Form} {before : Work} {text : String} :
    (∃ after, (call function arguments).code signatures form before = (.ok text, after)) ↔
      ∃ signature name texts, signatures.forCall function arguments.length = .ok signature ∧
        Name.code function = .ok name ∧ text = name ++ "(" ++ ", ".intercalate texts ++ ")" ∧
        ∃ after, argumentCodes signatures function signature.parameters arguments before = (.ok texts, after) := by
  constructor
  · rintro ⟨after, ran⟩
    simp only [code] at ran
    obtain ⟨signature, _, looked, ran⟩ := bind_ok.mp ran
    obtain ⟨found, rfl⟩ := lift_ok.mp looked
    obtain ⟨texts, work, written, ran⟩ := bind_ok.mp ran
    obtain ⟨_, _, _, ran⟩ := bind_ok.mp ran
    obtain ⟨name, _, named, ran⟩ := bind_ok.mp ran
    obtain ⟨spelled, rfl⟩ := lift_ok.mp named
    obtain ⟨rfl, _⟩ := pure_ok.mp ran
    exact ⟨signature, name, texts, found, spelled, rfl, work, written⟩
  · rintro ⟨signature, name, texts, found, spelled, rfl, after, written⟩
    refine ⟨{ after with events := after.events ++ [.call function texts.length] }, ?_⟩
    simp only [code]
    refine bind_ok.mpr ⟨signature, before, lift_ok.mpr ⟨found, rfl⟩, ?_⟩
    refine bind_ok.mpr ⟨texts, after, written, bind_ok.mpr ⟨(), _, rfl, ?_⟩⟩
    exact bind_ok.mpr ⟨name, _, lift_ok.mpr ⟨spelled, rfl⟩, pure_ok.mpr ⟨rfl, rfl⟩⟩

end Calls

/-- A call is written out exactly if each of its arguments could be written out in its place on its
own and no argument uses a variable that one before it gives away. So of two arguments that
refer to one variable the earlier does not give it away, while both may change it. -/
theorem call_shares (signatures : Signatures) (function : String) (arguments : List (Accessor × Expr))
    (form : Form) (before : Work) (text : String) :
    ((∃ after, (call function arguments).code signatures form before = (.ok text, after)) ↔
      ∃ signature name texts, signatures.forCall function arguments.length = .ok signature ∧
        Name.code function = .ok name ∧ text = name ++ "(" ++ ", ".intercalate texts ++ ")" ∧
        List.Forall₂ (StandsAlone signatures function before) (signature.parameters.zip arguments) texts ∧
        arguments.Pairwise Spares) ∧
    ((∃ after, (call function arguments).code signatures form before = (.ok text, after)) →
      arguments.Pairwise fun earlier later => ∀ root,
        earlier.2.root? = some root → later.2.root? = some root → earlier.1 ≠ .move ∧
          ∃ binding, before.scope.find? root = some binding ∧ binding.moved = false ∧
            binding.Allows before.scope.loopDepth (.pass root earlier.1) ∧
            binding.Allows before.scope.loopDepth (.pass root later.1)) := by
  constructor
  · rw [call_ok]
    constructor
    · rintro ⟨signature, name, texts, found, spelled, same, written⟩
      have counted := (Signatures.forCall_ok.mp found).2
      exact ⟨signature, name, texts, found, spelled, same, (argumentCodes_iff counted before texts).mp written⟩
    · rintro ⟨signature, name, texts, found, spelled, same, accepted⟩
      have counted := (Signatures.forCall_ok.mp found).2
      exact ⟨signature, name, texts, found, spelled, same, (argumentCodes_iff counted before texts).mpr accepted⟩
  · rintro ⟨after, ran⟩
    have steps := code_performs signatures form _ _ _ _ ran
    simp only [Expr.steps, uses, argumentUses_eq] at steps
    obtain ⟨admitted, apart⟩ := Scope.run_uses_iff.mp ⟨_, steps⟩
    have handed {argument : Accessor × Expr} {root : String} (rooted : argument.2.root? = some root) :
        .pass root argument.1 ∈ passUses argument := by
      simp [passUses, rooted]
    refine List.Pairwise.imp_of_mem ?_ (List.pairwise_flatMap.mp apart).2
    intro earlier later inCall inCall' spared root rooted rooted'
    refine ⟨?_, ?_⟩
    · intro moves
      exact spared _ (handed rooted) _ (handed rooted') (by rw [moves]; rfl)
    · obtain ⟨binding, found, whole, allowed⟩ := admitted _ (List.mem_flatMap.mpr ⟨_, inCall, handed rooted⟩)
      obtain ⟨same, found', _, allowed'⟩ := admitted _ (List.mem_flatMap.mpr ⟨_, inCall', handed rooted'⟩)
      cases found.symm.trans found'
      exact ⟨binding, found, whole, allowed, allowed'⟩

section Samples

/-- A function of two parameters with these accessors. -/
private def pairing (first last : Accessor) : Signatures :=
  ⟨[("both", ⟨[("a", first), ("b", last)], false⟩)]⟩

/-- One variable for both parameters. -/
private def twice (first last : Accessor) : List (Accessor × Expr) :=
  [(first, .identifier "v"), (last, .identifier "v")]

/-- Nothing but one variable that may be changed. -/
private def lone : Work :=
  ⟨⟨[("v", ⟨.declared true, false, 0⟩)], [], 0⟩, []⟩

/-- A variable may be looked at by an earlier argument than the one that gives it away. -/
theorem looked_at_before_moved :
    (∃ after, (call "both" (twice .look .move)).code (pairing .look .move) .value lone =
      (.ok "sn_both(&sn_v, sn_v)", after)) ∧
    ∃ binding, lone.scope.find? "v" = some binding ∧ binding.permits .look = true ∧
      binding.permits .move = true := by
  have ran : (call "both" (twice .look .move)).code (pairing .look .move) .value lone =
      (.ok "sn_both(&sn_v, sn_v)", ⟨lone.scope.markMoved "v", [.call "both" 2]⟩) := by cbv
  have shared := (call_shares (pairing .look .move) "both" _ .value lone _).2 ⟨_, ran⟩
  obtain ⟨_, binding, found, _, looks, moves⟩ := (List.pairwise_cons.mp shared).1 _ List.mem_cons_self "v" rfl rfl
  exact ⟨⟨_, ran⟩, binding, found, looks.1, moves.1⟩

/-- Both arguments of a call may lend one variable to be changed. -/
theorem changed_by_both :
    (∃ after, (call "both" (twice .mutate .mutate)).code (pairing .mutate .mutate) .value lone =
      (.ok "sn_both(&mut sn_v, &mut sn_v)", after)) ∧
    ∀ argument ∈ twice .mutate .mutate, argument.1 = .mutate ∧ argument.2.root? = some "v" :=
  ⟨⟨⟨lone.scope, [.call "both" 2]⟩, by cbv⟩, by simp [twice, root?]⟩

end Samples

end Expr
end Lowering
