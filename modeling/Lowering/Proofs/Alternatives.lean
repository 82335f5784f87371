import Lowering.Proofs.Loops

/-! Reading branches and arms, each of which may end with one that holds where no other does. -/

namespace Lowering

open Lowering.Tree (ifGiven Spells EntriesSpell)
open Traced (Steady)

namespace Statement

variable {tree : Tree} {node : Node tree} {statement : Statement}

section Bodies

variable {readBody : Node tree → Traced (List Statement)} (reader : BodyReader readBody) {fields : Fields tree}
  {condition : Expr} {body : List Statement}
include reader

/-- The tag of the next branch with a condition. -/
def Branches.nextTag (branches : Branches) : String :=
  if branches.tested.isEmpty then "if_branch" else "elseif_branch"

omit reader in
theorem Branches.nextTag_present (branches : Branches) : branches.nextTag ∉ omittable := by
  unfold nextTag
  split <;> decide

omit reader in
theorem Branches.nextTag_set (branches : Branches) : Content.under branches.nextTag = .fields := by
  unfold nextTag
  split <;> rfl

omit reader in
theorem Branches.nextTag_snoc (tested : List (Expr × List Statement)) (branch : Expr × List Statement)
    (otherwise : Option (List Statement)) : nextTag ⟨tested ++ [branch], otherwise⟩ = "elseif_branch" := by
  simp [nextTag]

omit reader in
theorem Branches.add_ok {branches next : Branches} {tag : String} (opened : branches.otherwise = none) :
    branches.add tag fields body = .ok next ↔
      (tag = branches.nextTag ∧ ∃ part condition, fields.part "expression" = .ok part ∧
        Expr.ofTree part.content = .ok condition ∧ { branches with tested := branches.tested ++ [(condition, body)] } = next) ∨
      (tag = "else_branch" ∧ branches.tested ≠ [] ∧ fields.contains "expression" = false ∧
        { branches with otherwise := some body } = next) := by
  constructor
  · intro read
    unfold Branches.add at read
    dsimp only at read
    split at read
    next tests =>
      obtain ⟨part, present, read⟩ := except_bind_ok.mp read
      obtain ⟨condition, valued, made⟩ := except_bind_ok.mp read
      cases made
      refine .inl ⟨?_, part, condition, present, valued, rfl⟩
      unfold Branches.nextTag
      grind
    next untested =>
      split at read
      next last =>
        obtain ⟨rfl, continues⟩ := last
        have started : branches.tested ≠ [] := by
          intro empty
          simp [empty] at continues
        cases absent : fields.contains "expression" with
        | true =>
          rw [absent] at read
          cases read
        | false =>
          rw [absent] at read
          cases read
          exact .inr ⟨rfl, started, rfl, rfl⟩
      next =>
        split at read <;> cases read
  · rintro (⟨rfl, part, condition, present, valued, rfl⟩ | ⟨rfl, some, absent, rfl⟩)
    · unfold Branches.add Branches.nextTag
      rw [opened]
      cases started : branches.tested.isEmpty with
      | true =>
        simp only [Bool.not_true, Option.isNone_none]
        exact except_bind_ok.mpr ⟨part, present, except_bind_ok.mpr ⟨condition, valued, rfl⟩⟩
      | false =>
        exact except_bind_ok.mpr ⟨part, present, except_bind_ok.mpr ⟨condition, valued, rfl⟩⟩
    · unfold Branches.add
      have started : branches.tested.isEmpty = false := by simpa using some
      simp [opened, started, absent]

def addBranch (readBody : Node tree → Traced (List Statement)) (branches : Branches) (branch : Node tree) :
    Traced Branches := do
  let fields ← branch.fields
  fields.allow ["expression", "statements"]
  branches.add branch.tag fields (← bodyOfFields readBody fields)

theorem addBranch_steady (branches : Branches) (branch : Node tree) : Steady (addBranch readBody branches branch) :=
  .bind (.lift _) fun fields => .bind (.lift _) fun _ => .bind (bodyOfFields_steady reader.steady fields) fun _ => .lift _

theorem addBranch_ok {branches next : Branches} (opened : branches.otherwise = none) :
    (addBranch readBody branches node).result = .ok next ↔
      (∃ condition body, { branches with tested := branches.tested ++ [(condition, body)] } = next ∧
        node.tag = branches.nextTag ∧ (condition.WellFormed .expression ∧ bodyWellFormed body) ∧
        Spells branches.nextTag (.ofEntries [("expression", condition.tree), ("statements", .ofEntries (bodyNodes body))])
          node.content) ∨
      (∃ body, { branches with otherwise := some body } = next ∧ node.tag = "else_branch" ∧ branches.tested ≠ [] ∧
        bodyWellFormed body ∧ Spells "else_branch" (.ofEntries [("statements", .ofEntries (bodyNodes body))]) node.content) := by
  have set := branches.nextTag_set
  unfold addBranch
  simp only [Traced.lift_bind_ok, Traced.bind_result_ok fun _ => Steady.lift _, Traced.result_lift, Branches.add_ok opened,
    ← tested_ok reader set, ← untested_ok reader]
  constructor
  · rintro ⟨fields, listed, _, allowed, body, read, ⟨tagged, part, condition, present, valued, made⟩ | ⟨tagged, some, absent, made⟩⟩
    · exact .inl ⟨condition, body, made, tagged, fields, part, listed, allowed, present, valued, read⟩
    · exact .inr ⟨body, made, tagged, some, fields, listed, allowed, absent, read⟩
  · rintro (⟨condition, body, made, tagged, fields, part, listed, allowed, present, valued, read⟩ |
      ⟨body, made, tagged, some, fields, listed, allowed, absent, read⟩)
    · exact ⟨fields, listed, (), allowed, body, read, .inl ⟨tagged, part, condition, present, valued, made⟩⟩
    · exact ⟨fields, listed, (), allowed, body, read, .inr ⟨tagged, some, absent, made⟩⟩

/-- Nothing follows the branch without a condition. -/
theorem closed_ok {nodes : List (Node tree)} {branches last : Branches} (started : branches.tested ≠ [])
    (closed : branches.otherwise.isSome = true) :
    (nodes.foldlM (addBranch readBody) branches).result = .ok last ↔ nodes = [] ∧ branches = last := by
  have steady (nodes : List (Node tree)) branches : Steady (nodes.foldlM (addBranch readBody) branches) :=
    .foldlM nodes (addBranch_steady reader) branches
  cases nodes with
  | nil => simp [Traced.pure_result_ok]
  | cons node nodes =>
    rw [List.foldlM_cons, Traced.bind_result_ok (steady nodes)]
    unfold addBranch
    simp only [Traced.lift_bind_ok, Traced.bind_result_ok fun _ => Steady.lift _, Traced.result_lift]
    constructor
    · rintro ⟨next, ⟨fields, _, _, _, body, _, added⟩, _⟩
      have first : branches.tested.isEmpty = false := by simpa using started
      have ended : branches.otherwise.isNone = false := by simpa using closed
      unfold Branches.add at added
      simp only [first, ended, Bool.not_false, Bool.and_false, Bool.false_eq_true, and_false, or_self, if_false] at added
      split at added <;> cases added
    · intro odd
      cases odd.1

omit reader in
theorem branches_nil {tag : String} (present : tag ∉ omittable) {more : List (Expr × List Statement)}
    {otherwise : Option (List Statement)} :
    EntriesSpell "if_block" (branchNodes tag more ++ elseNodes otherwise) [] ↔ more = [] ∧ otherwise = none := by
  cases more with
  | nil =>
    cases otherwise with
    | none => simp [branchNodes, elseNodes, Tree.entriesSpell_nil]
    | some body => simp [branchNodes, elseNodes, Tree.not_entriesSpell_nil (by decide : "else_branch" ∉ omittable)]
  | cons branch more => simp [branchNodes, Tree.not_entriesSpell_nil present]

omit reader in
/-- The first of the nodes holds the first of the branches, or the last of them all. -/
theorem branches_cons {tag : String} (present : tag ∉ omittable) {nodes : List (Node tree)}
    {more : List (Expr × List Statement)} {otherwise : Option (List Statement)} :
    EntriesSpell "if_block" (branchNodes tag more ++ elseNodes otherwise) ((node :: nodes).map Node.entry) ↔
      (∃ condition body others, more = (condition, body) :: others ∧ node.tag = tag ∧
        Spells tag (.ofEntries [("expression", condition.tree), ("statements", .ofEntries (bodyNodes body))]) node.content ∧
        EntriesSpell "if_block" (branchNodes "elseif_branch" others ++ elseNodes otherwise) (nodes.map Node.entry)) ∨
      (∃ body, more = [] ∧ otherwise = some body ∧ nodes = [] ∧ node.tag = "else_branch" ∧
        Spells "else_branch" (.ofEntries [("statements", .ofEntries (bodyNodes body))]) node.content) := by
  cases more with
  | nil =>
    cases otherwise with
    | none => simp [branchNodes, elseNodes, Tree.entriesSpell_nil]
    | some body =>
      refine (Tree.entriesSpell_node (by decide) (.inl (by decide))).trans ?_
      rw [Tree.entriesSpell_nil, List.map_eq_nil_iff]
      constructor
      · rintro ⟨tagged, spells, rfl⟩
        exact .inr ⟨body, rfl, rfl, rfl, tagged, spells⟩
      · rintro (⟨_, _, _, odd, _⟩ | ⟨_, _, same, rfl, tagged, spells⟩)
        · cases odd
        · cases same
          exact ⟨tagged, spells, rfl⟩
  | cons branch more =>
    obtain ⟨condition, body⟩ := branch
    refine (Tree.entriesSpell_node present (.inl (by decide))).trans ?_
    constructor
    · rintro ⟨tagged, spells, later⟩
      exact .inl ⟨condition, body, more, rfl, tagged, spells, later⟩
    · rintro (⟨_, _, _, same, tagged, spells, later⟩ | ⟨_, odd, _⟩)
      · cases same
        exact ⟨tagged, spells, later⟩
      · cases odd

/-- The branches are read one by one, and the one without a condition comes last. -/
theorem branches_ok {nodes : List (Node tree)} {branches last : Branches} (opened : branches.otherwise = none) :
    (nodes.foldlM (addBranch readBody) branches).result = .ok last ↔ ∃ more, last.tested = branches.tested ++ more ∧
      (last.otherwise.isSome = true → last.tested ≠ []) ∧ (branchesWellFormed more ∧ defaultWellFormed last.otherwise) ∧
      EntriesSpell "if_block" (branchNodes branches.nextTag more ++ elseNodes last.otherwise) (nodes.map Node.entry) := by
  have steady (nodes : List (Node tree)) branches : Steady (nodes.foldlM (addBranch readBody) branches) :=
    .foldlM nodes (addBranch_steady reader) branches
  obtain ⟨tested, otherwise⟩ := last
  induction nodes generalizing branches with
  | nil =>
    rw [List.foldlM_nil, Traced.pure_result_ok, List.map_nil]
    simp only [branches_nil branches.nextTag_present]
    constructor
    · rintro rfl
      cases opened
      exact ⟨[], (List.append_nil _).symm, nofun, ⟨trivial, trivial⟩, rfl, rfl⟩
    · rintro ⟨_, rfl, _, _, rfl, rfl⟩
      obtain ⟨tested, _⟩ := branches
      cases opened
      rw [List.append_nil]
  | cons node nodes ih =>
    rw [List.foldlM_cons, Traced.bind_result_ok (steady nodes)]
    simp only [branches_cons branches.nextTag_present]
    constructor
    · rintro ⟨next, added, rest⟩
      obtain ⟨condition, body, rfl, tagged, formed, spells⟩ | ⟨body, rfl, tagged, started, formed, spells⟩ :=
        (addBranch_ok reader opened).mp added
      · obtain ⟨more, rfl, some, ⟨others, ended⟩, later⟩ := (ih (by exact opened)).mp rest
        rw [Branches.nextTag_snoc] at later
        exact ⟨(condition, body) :: more, List.append_assoc _ _ _, some, ⟨⟨formed, others⟩, ended⟩,
          .inl ⟨condition, body, more, rfl, tagged, spells, later⟩⟩
      · obtain ⟨rfl, same⟩ := (closed_ok reader (by exact started) (by rfl)).mp rest
        cases same
        exact ⟨[], (List.append_nil _).symm, fun _ => started, ⟨trivial, formed⟩, .inr ⟨body, rfl, rfl, rfl, tagged, spells⟩⟩
    · rintro ⟨_, rfl, started, ⟨formed, ended⟩, ⟨condition, body, more, rfl, tagged, spells, later⟩ | ⟨body, rfl, rfl, rfl, tagged, spells⟩⟩
      · refine ⟨_, (addBranch_ok reader opened).mpr (.inl ⟨condition, body, rfl, tagged, formed.1, spells⟩), ?_⟩
        refine (ih (by exact opened)).mpr ⟨more, List.append_cons _ _ _, started, ⟨formed.2, ended⟩, ?_⟩
        rwa [Branches.nextTag_snoc]
      · rw [List.append_nil] at started ⊢
        refine ⟨_, (addBranch_ok reader opened).mpr (.inr ⟨body, rfl, tagged, started rfl, ended, spells⟩), ?_⟩
        exact Traced.pure_result_ok.mpr rfl

theorem ifBlockOfNode_ok : (ifBlockOfNode readBody node).result = .ok statement ↔
    ∃ branches otherwise, statement = .ifBlock branches otherwise ∧
      (branches ≠ [] ∧ branchesWellFormed branches ∧ defaultWellFormed otherwise) ∧
      Spells "if_block" (.ofEntries (branchNodes "if_branch" branches ++ elseNodes otherwise)) node.content := by
  have ordered : Content.under "if_block" = .ordered := rfl
  have steady (branches : Branches) : Steady (do
      if branches.tested.isEmpty then throw (.malformed .withoutIf)
      return .ifBlock branches.tested branches.otherwise : Traced Statement) :=
    .refuse _ fun _ => .pure _
  have unfolded : ifBlockOfNode readBody node = do
      let nodes ← liftM node.children
      let branches ← nodes.foldlM (addBranch readBody) {}
      if branches.tested.isEmpty then throw (.malformed .withoutIf)
      return .ifBlock branches.tested branches.otherwise := rfl
  rw [unfolded]
  simp only [Traced.lift_bind_ok, Traced.bind_result_ok steady, Tree.spells_sequence ordered]
  constructor
  · rintro ⟨nodes, children, ⟨tested, otherwise⟩, read, made⟩
    obtain ⟨some, made⟩ := Traced.refuse_ok.mp made
    obtain ⟨_, rfl, _, formed, spells⟩ := (branches_ok reader (by rfl)).mp read
    refine ⟨tested, otherwise, (Traced.pure_result_ok.mp made).symm, ⟨by simpa using some, formed⟩, ?_⟩
    exact ⟨nodes.map Node.entry, Node.children_ok.mp children, spells⟩
  · rintro ⟨branches, otherwise, rfl, ⟨some, formed⟩, entries, listed, spells⟩
    obtain ⟨nodes, children, rfl⟩ := Node.exists_children listed
    refine ⟨nodes, children, ⟨branches, otherwise⟩, ?_, ?_⟩
    · exact (branches_ok reader (by rfl)).mpr ⟨branches, rfl, fun _ => some, formed, spells⟩
    · exact Traced.refuse_ok.mpr ⟨by simpa using some, Traced.pure_result_ok.mpr rfl⟩

theorem addArm_ok {arms next : Arms} (opened : arms.otherwise = none) :
    (arms.add readBody node).result = .ok next ↔ node.tag = "match_branch" ∧ ∃ values body,
      (if values.isEmpty then { arms with otherwise := some body }
        else { arms with tested := arms.tested ++ [(values, body)] }) = next ∧
      (Expr.allWellFormed values ∧ bodyWellFormed body) ∧
      Spells "match_branch" (.ofEntries (Expr.itemNodes values ++ [("statements", .ofEntries (bodyNodes body))])) node.content := by
  have ordered : Content.under "match_branch" = .ordered := rfl
  have steady (read : List Expr × List Statement) : Steady (if read.1.isEmpty then
      pure { arms with otherwise := some read.2 } else pure { arms with tested := arms.tested ++ [read] } : Traced Arms) := by
    split <;> exact .pure _
  have chosen (read : List Expr × List Statement) : (if read.1.isEmpty then pure { arms with otherwise := some read.2 }
      else pure { arms with tested := arms.tested ++ [read] } : Traced Arms).result = .ok next ↔
      (if read.1.isEmpty then { arms with otherwise := some read.2 }
        else { arms with tested := arms.tested ++ [read] }) = next := by
    split <;> exact Traced.pure_result_ok
  have unfolded : arms.add readBody node = do
      if node.tag ≠ "match_branch" then throw (.unknown .matchField node.tag)
      if arms.otherwise.isSome then throw (.malformed .branchAfterDefault)
      let read ← Clause.readAll .branchField readBody (Clause.ofNodes (← node.children))
      if read.1.isEmpty then return { arms with otherwise := some read.2 }
      else return { arms with tested := arms.tested ++ [read] } := rfl
  rw [unfolded, Traced.refuse_ok.trans (and_congr_right fun _ => Traced.refuse_ok), not_not]
  simp only [Traced.lift_bind_ok, Traced.bind_result_ok steady, chosen, Tree.spells_sequence ordered]
  constructor
  · rintro ⟨tagged, _, nodes, children, ⟨values, body⟩, read, made⟩
    obtain ⟨formed, spells⟩ := (readAll_ok reader "match_branch").mp read
    exact ⟨tagged, values, body, made, formed, _, Node.children_ok.mp children, spells⟩
  · rintro ⟨tagged, values, body, made, formed, entries, listed, spells⟩
    obtain ⟨nodes, children, rfl⟩ := Node.exists_children listed
    refine ⟨tagged, by simp [opened], nodes, children, (values, body), ?_, made⟩
    exact (readAll_ok reader "match_branch").mpr ⟨formed, spells⟩

omit reader in
theorem addArm_closed (readBody : Node tree → Traced (List Statement)) {arms next : Arms} (closed : arms.otherwise.isSome = true) :
    (arms.add readBody node).result ≠ .ok next := by
  intro added
  unfold Arms.add at added
  obtain ⟨_, added⟩ := Traced.refuse_ok.mp added
  exact (Traced.refuse_ok.mp added).1 closed

omit reader in
theorem arms_nil {more : List (List Expr × List Statement)} {otherwise : Option (List Statement)} :
    EntriesSpell "match_block" (armNodes more ++ defaultNodes otherwise) [] ↔ more = [] ∧ otherwise = none := by
  have present : "match_branch" ∉ omittable := by decide
  cases more with
  | nil =>
    cases otherwise with
    | none => simp [armNodes, defaultNodes, Tree.entriesSpell_nil]
    | some body => simp [armNodes, defaultNodes, Tree.not_entriesSpell_nil present]
  | cons arm more => simp [armNodes, Tree.not_entriesSpell_nil present]

omit reader in
/-- The first of the nodes holds the first of the arms, or the last of them all. -/
theorem arms_cons {nodes : List (Node tree)} {more : List (List Expr × List Statement)} {otherwise : Option (List Statement)} :
    EntriesSpell "match_block" (armNodes more ++ defaultNodes otherwise) ((node :: nodes).map Node.entry) ↔
      node.tag = "match_branch" ∧ ((∃ values body others, more = (values, body) :: others ∧
        Spells "match_branch" (.ofEntries (Expr.itemNodes values ++ [("statements", .ofEntries (bodyNodes body))])) node.content ∧
        EntriesSpell "match_block" (armNodes others ++ defaultNodes otherwise) (nodes.map Node.entry)) ∨
      (∃ body, more = [] ∧ otherwise = some body ∧ nodes = [] ∧
        Spells "match_branch" (.ofEntries [("statements", .ofEntries (bodyNodes body))]) node.content)) := by
  cases more with
  | nil =>
    cases otherwise with
    | none => simp [armNodes, defaultNodes, Tree.entriesSpell_nil]
    | some body =>
      refine (Tree.entriesSpell_node (by decide) (.inr (by decide))).trans (and_congr_right fun _ => ?_)
      rw [Tree.entriesSpell_nil, List.map_eq_nil_iff]
      constructor
      · rintro ⟨spells, rfl⟩
        exact .inr ⟨body, rfl, rfl, rfl, spells⟩
      · rintro (⟨_, _, _, odd, _⟩ | ⟨_, _, same, rfl, spells⟩)
        · cases odd
        · cases same
          exact ⟨spells, rfl⟩
  | cons arm more =>
    obtain ⟨values, body⟩ := arm
    refine (Tree.entriesSpell_node (by decide) (.inr (by decide))).trans (and_congr_right fun _ => ?_)
    constructor
    · rintro ⟨spells, later⟩
      exact .inl ⟨values, body, more, rfl, spells, later⟩
    · rintro (⟨_, _, _, same, spells, later⟩ | ⟨_, odd, _⟩)
      · cases same
        exact ⟨spells, later⟩
      · cases odd

/-- The arms are read one by one, and the one without values comes last. -/
theorem arms_ok {nodes : List (Node tree)} {arms last : Arms} (opened : arms.otherwise = none) :
    (nodes.foldlM (fun (arms : Arms) arm => arms.add readBody arm) arms).result = .ok last ↔
      ∃ more, last.tested = arms.tested ++ more ∧ (armsWellFormed more ∧ defaultWellFormed last.otherwise) ∧
        EntriesSpell "match_block" (armNodes more ++ defaultNodes last.otherwise) (nodes.map Node.entry) := by
  have steady (nodes : List (Node tree)) arms : Steady (nodes.foldlM (fun (arms : Arms) arm => arms.add readBody arm) arms) :=
    .foldlM nodes (addArm_steady reader.steady) arms
  obtain ⟨tested, otherwise⟩ := last
  induction nodes generalizing arms with
  | nil =>
    rw [List.foldlM_nil, Traced.pure_result_ok, List.map_nil]
    simp only [arms_nil]
    constructor
    · rintro rfl
      cases opened
      exact ⟨[], (List.append_nil _).symm, ⟨trivial, trivial⟩, rfl, rfl⟩
    · rintro ⟨_, rfl, _, rfl, rfl⟩
      obtain ⟨tested, _⟩ := arms
      cases opened
      rw [List.append_nil]
  | cons node nodes ih =>
    rw [List.foldlM_cons, Traced.bind_result_ok (steady nodes)]
    simp only [arms_cons]
    constructor
    · rintro ⟨next, added, rest⟩
      obtain ⟨tagged, values, body, rfl, formed, spells⟩ := (addArm_ok reader opened).mp added
      cases values with
      | nil =>
        cases nodes with
        | nil =>
          cases Traced.pure_result_ok.mp rest
          exact ⟨[], (List.append_nil _).symm, ⟨trivial, formed.2⟩, tagged, .inr ⟨body, rfl, rfl, rfl, spells⟩⟩
        | cons after nodes =>
          rw [List.foldlM_cons, Traced.bind_result_ok (steady nodes)] at rest
          obtain ⟨_, odd, _⟩ := rest
          exact absurd odd (addArm_closed readBody rfl)
      | cons value values =>
        obtain ⟨more, rfl, ⟨others, ended⟩, later⟩ := (ih (by exact opened)).mp rest
        exact ⟨(value :: values, body) :: more, List.append_assoc _ _ _, ⟨⟨⟨List.cons_ne_nil _ _, formed⟩, others⟩, ended⟩,
          tagged, .inl ⟨value :: values, body, more, rfl, spells, later⟩⟩
    · rintro ⟨_, rfl, ⟨formed, ended⟩, tagged, ⟨values, body, more, rfl, spells, later⟩ | ⟨body, rfl, rfl, rfl, spells⟩⟩
      · obtain ⟨⟨some, formed⟩, others⟩ := formed
        refine ⟨_, (addArm_ok reader opened).mpr ⟨tagged, values, body, rfl, formed, spells⟩, ?_⟩
        rw [if_neg (by simpa using some)]
        exact (ih (by exact opened)).mpr ⟨more, List.append_cons _ _ _, ⟨others, ended⟩, later⟩
      · refine ⟨_, (addArm_ok reader opened).mpr ⟨tagged, [], body, rfl, ⟨trivial, ended⟩, spells⟩, ?_⟩
        rw [List.append_nil]
        exact Traced.pure_result_ok.mpr rfl

theorem matchBlockOfNode_ok : (matchBlockOfNode readBody node).result = .ok statement ↔
    ∃ subject arms otherwise, statement = .matchBlock subject arms otherwise ∧
      (subject.WellFormed .expression ∧ (arms = [] → otherwise.isSome = true) ∧ armsWellFormed arms ∧
        defaultWellFormed otherwise) ∧
      Spells "match_block" (.ofEntries (("expression", subject.tree) :: armNodes arms ++ defaultNodes otherwise)) node.content := by
  have ordered : Content.under "match_block" = .ordered := rfl
  have steady (subject : Expr) (arms : Arms) : Steady (do
      if arms.tested.isEmpty ∧ arms.otherwise.isNone then throw (.malformed .withoutBranches)
      return .matchBlock subject arms.tested arms.otherwise : Traced Statement) :=
    .refuse _ fun _ => .pure _
  unfold matchBlockOfNode
  simp only [Traced.lift_bind_ok, Tree.spells_sequence ordered]
  constructor
  · rintro ⟨nodes, children, read⟩
    cases nodes with
    | nil => cases read
    | cons head rest =>
      simp only [Traced.lift_bind_ok, Traced.bind_result_ok (steady _)] at read
      obtain ⟨_, tagged, subject, valued, ⟨arms, otherwise⟩, read, made⟩ := read
      obtain ⟨some, made⟩ := Traced.refuse_ok.mp made
      obtain ⟨_, rfl, formed, spells⟩ := (arms_ok reader (by rfl)).mp read
      obtain ⟨first, spelt⟩ := Expr.ofTree_spells.mp valued
      refine ⟨subject, arms, otherwise, (Traced.pure_result_ok.mp made).symm, ⟨first, ?_, formed⟩, _,
        Node.children_ok.mp children, ?_⟩
      · rintro rfl
        exact Option.isSome_iff_ne_none.mpr (by simpa using some)
      · rw [List.map_cons, Node.entry_eq (Node.checkTag_ok.mp tagged)]
        exact .cons spelt spells
  · rintro ⟨subject, arms, otherwise, rfl, ⟨first, some, formed⟩, entries, listed, spells⟩
    obtain ⟨nodes, children, rfl⟩ := Node.exists_children listed
    obtain ⟨content, rest, same, spelt, later⟩ := (Tree.entriesSpell_cons (by decide) (.inr (by decide))).mp spells
    obtain ⟨⟨_, _, _⟩, others, rfl, head, rfl⟩ := List.map_eq_cons_iff.mp same
    cases head
    refine ⟨_, children, ?_⟩
    simp only [Traced.lift_bind_ok, Traced.bind_result_ok (steady _)]
    refine ⟨(), Node.checkTag_ok.mpr rfl, subject, Expr.ofTree_spells.mpr ⟨first, spelt⟩, ⟨arms, otherwise⟩, ?_, ?_⟩
    · exact (arms_ok reader (by rfl)).mpr ⟨arms, rfl, formed, later⟩
    · refine Traced.refuse_ok.mpr ⟨?_, Traced.pure_result_ok.mpr rfl⟩
      intro empty
      have given := some (List.isEmpty_iff.mp empty.1)
      cases otherwise with
      | none => cases given
      | some _ => cases empty.2

end Bodies

end Statement
end Lowering
