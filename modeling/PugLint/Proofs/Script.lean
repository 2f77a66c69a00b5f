import PugLint.Script

/-!
# Names of several scripts

A script binds what its statements declare. The scripts of a component are scanned one after the
other, and a name that several of them bind counts as a name of the first. So a name is one of the
setup scripts if the first script that binds it is a setup script. A setup script that binds a name
loses it where a plain script in front of it has bound that name already.

All this holds for any parser of scripts.

* `Script.Statement.Binds`: the names that a statement binds, by its syntax;
* `ScriptInfo.bound_addBlock`, `ScriptInfo.hasSetupBinding_addBlock`: what one more script adds;
* `ScriptInfo.hasSetupBinding_iff_first`: the script that decides;
* `ScriptInfo.hasSetupBinding_scan`: the names of setup scripts, unless they are taken.
-/

namespace PugLint

namespace Script

/-! ### What is bound -/

/-- The names that a pattern binds. -/
inductive BindingPattern.Binds : BindingPattern → String → Prop where
  | identifier (name : String) : Binds (.identifier name) name
  | property {properties : List BindingProperty} {rest : Option BindingPattern} {key : PropertyKey}
    {value : BindingPattern} {name : String} (hmem : .mk key value ∈ properties)
    (h : Binds value name) : Binds (.object properties rest) name
  | otherProperties {properties : List BindingProperty} {rest : BindingPattern} {name : String}
    (h : Binds rest name) : Binds (.object properties (some rest)) name
  | element {elements : List (Option BindingPattern)} {rest : Option BindingPattern}
    {element : BindingPattern} {name : String} (hmem : some element ∈ elements)
    (h : Binds element name) : Binds (.array elements rest) name
  | otherElements {elements : List (Option BindingPattern)} {rest : BindingPattern} {name : String}
    (h : Binds rest name) : Binds (.array elements (some rest)) name
  | assignment {left : BindingPattern} {name : String} (h : Binds left name) :
    Binds (.assignment left) name

/-- The name that a specifier binds. Types are not bound. -/
inductive ImportSpecifier.Binds : ImportSpecifier → String → Prop where
  | named (name : String) : Binds (.named false name) name
  | ofDefault (name : String) : Binds (.ofDefault name) name
  | ofNamespace (name : String) : Binds (.ofNamespace name) name

/-- The names that a declaration binds. -/
inductive Declaration.Binds : Declaration → String → Prop where
  | ofVariables {declarators : List BindingPattern} {pattern : BindingPattern} {name : String}
    (hmem : pattern ∈ declarators) (h : pattern.Binds name) : Binds (.ofVariables declarators) name
  | ofFunction (name : String) : Binds (.ofFunction (some name)) name
  | ofClass (name : String) : Binds (.ofClass (some name)) name

/-- The names that a statement binds. -/
inductive Statement.Binds : Statement → String → Prop where
  | ofImport {specifiers : List ImportSpecifier} {specifier : ImportSpecifier} {name : String}
    (hmem : specifier ∈ specifiers) (h : specifier.Binds name) :
    Binds (.ofImport false (some specifiers)) name
  | ofDeclaration {declaration : Declaration} {name : String} (h : declaration.Binds name) :
    Binds (.ofDeclaration declaration) name
  | exportNamed {declaration : Declaration} {name : String} (h : declaration.Binds name) :
    Binds (.exportNamed (some declaration)) name
  | exportFunction (name : String) : Binds (.exportDefault (.ofFunction (some name))) name
  | exportClass (name : String) : Binds (.exportDefault (.ofClass (some name))) name

variable {name : String}

mutual

theorem BindingPattern.mem_names_iff (pattern : BindingPattern) :
    name ∈ pattern.names ↔ pattern.Binds name := by
  match pattern with
  | .identifier bound =>
    rw [names, List.mem_singleton]
    constructor
    · rintro rfl
      exact .identifier name
    · rintro ⟨⟩
      rfl
  | .object properties rest =>
    rw [names, List.mem_append, mem_namesOfProperties properties, mem_namesOfRest rest]
    constructor
    · rintro (⟨key, value, hmem, h⟩ | ⟨rest, rfl, h⟩)
      · exact .property hmem h
      · exact .otherProperties h
    · rintro (_ | ⟨hmem, h⟩ | h)
      · exact .inl ⟨_, _, hmem, h⟩
      · exact .inr ⟨_, rfl, h⟩
  | .array elements rest =>
    rw [names, List.mem_append, mem_namesOfElements elements, mem_namesOfRest rest]
    constructor
    · rintro (⟨element, hmem, h⟩ | ⟨rest, rfl, h⟩)
      · exact .element hmem h
      · exact .otherElements h
    · rintro (_ | _ | _ | ⟨hmem, h⟩ | h)
      · exact .inl ⟨_, hmem, h⟩
      · exact .inr ⟨_, rfl, h⟩
  | .assignment left =>
    rw [names, mem_names_iff left]
    constructor
    · exact .assignment
    · rintro ⟨⟩
      assumption

theorem BindingPattern.mem_namesOfProperties (properties : List BindingProperty) :
    name ∈ namesOfProperties properties ↔
      ∃ key value, .mk key value ∈ properties ∧ value.Binds name := by
  match properties with
  | [] => simp [namesOfProperties]
  | .mk key value :: properties =>
    simp [namesOfProperties, mem_names_iff value, mem_namesOfProperties properties, or_and_right,
      exists_or, and_assoc]

theorem BindingPattern.mem_namesOfElements (elements : List (Option BindingPattern)) :
    name ∈ namesOfElements elements ↔ ∃ element, some element ∈ elements ∧ element.Binds name := by
  match elements with
  | [] => simp [namesOfElements]
  | none :: elements => simp [namesOfElements, mem_namesOfElements elements]
  | some element :: elements =>
    simp [namesOfElements, mem_names_iff element, mem_namesOfElements elements, or_and_right,
      exists_or]

theorem BindingPattern.mem_namesOfRest (rest : Option BindingPattern) :
    name ∈ namesOfRest rest ↔ ∃ pattern, rest = some pattern ∧ pattern.Binds name := by
  match rest with
  | none => simp [namesOfRest]
  | some rest => simp [namesOfRest, mem_names_iff rest]

end

/-- The pattern of `const { a, b: renamed, ...rest } = useThing()`: its keys bind nothing. -/
example :
    (BindingPattern.object
      [.mk (.identifier "a") (.identifier "a"), .mk (.identifier "b") (.identifier "renamed")]
      (some (.identifier "rest"))).names = ["a", "renamed", "rest"] := rfl

theorem ImportSpecifier.name?_eq_some_iff {specifier : ImportSpecifier} :
    specifier.name? = some name ↔ specifier.Binds name := by
  constructor
  · intro h
    cases specifier with
    | named isType bound =>
      cases isType with
      | true => cases h
      | false =>
        cases h
        exact .named name
    | ofDefault bound =>
      cases h
      exact .ofDefault name
    | ofNamespace bound =>
      cases h
      exact .ofNamespace name
  · rintro ⟨⟩ <;> rfl

theorem Declaration.mem_names_iff (declaration : Declaration) :
    name ∈ declaration.names ↔ declaration.Binds name := by
  cases declaration with
  | ofVariables declarators =>
    simp only [names, List.mem_flatMap, BindingPattern.mem_names_iff]
    constructor
    · rintro ⟨pattern, hmem, h⟩
      exact .ofVariables hmem h
    · rintro ⟨hmem, h⟩
      exact ⟨_, hmem, h⟩
  | ofFunction bound =>
    rw [names, Option.mem_toList]
    constructor
    · rintro rfl
      exact .ofFunction name
    · rintro ⟨⟩
      rfl
  | ofClass bound =>
    rw [names, Option.mem_toList]
    constructor
    · rintro rfl
      exact .ofClass name
    · rintro ⟨⟩
      rfl
  | other =>
    refine iff_of_false List.not_mem_nil ?_
    rintro ⟨⟩

end Script

/-- Whether a script can be read and one of its statements binds a name. -/
def ScriptBlock.Binds [ScriptParser] (block : ScriptBlock) (name : String) : Prop :=
  ∃ statements, ScriptParser.parse? (.ofName block.lang) block.content = some statements ∧
    ∃ statement ∈ statements, statement.Binds name

/-- Whether a name of a setup script is taken: a plain script is the first one to bind it. -/
def ScriptBlock.Takes [ScriptParser] (blocks : List ScriptBlock) (name : String) : Prop :=
  ∃ before plain after, blocks = before ++ plain :: after ∧
    (∀ block ∈ before, ¬block.Binds name) ∧ (plain.setup = false ∧ plain.Binds name) ∧
    ∃ block ∈ after, block.setup = true ∧ block.Binds name

namespace ScriptInfo

open Script

/-- Whether any of the scripts binds a name. -/
def Bound (info : ScriptInfo) (name : String) : Prop :=
  ∃ binding ∈ info.bindings, binding.name = name

variable {info : ScriptInfo} {setup : Bool} {name : String}

theorem hasSetupBinding_iff :
    info.hasSetupBinding name = true ↔
      ∃ binding ∈ info.bindings, binding.setup = true ∧ binding.name = name := by
  simp only [hasSetupBinding, setupBindings, List.contains_iff_mem, List.mem_map, List.mem_filter,
    and_assoc]

/-! ### One script -/

/-- A statement adds the names that it binds. -/
theorem Offer.mem_names_addStatement (offer : Offer) (statement : Statement) :
    name ∈ (offer.addStatement statement).names ↔ name ∈ offer.names ∨ statement.Binds name := by
  have hbind (names : List String) :
      name ∈ (offer.bind names).names ↔ name ∈ offer.names ∨ name ∈ names := List.mem_append
  have hnone {statement : Statement} (hnames : (offer.addStatement statement).names = offer.names)
      (h : ¬statement.Binds name) :
      name ∈ (offer.addStatement statement).names ↔ name ∈ offer.names ∨ statement.Binds name := by
    rw [hnames, or_iff_left h]
  cases statement with
  | ofImport isType specifiers =>
    rcases isType with _ | _
    · cases specifiers with
      | none => exact hnone rfl (by rintro ⟨⟩)
      | some specifiers =>
        rw [addStatement, hbind, List.mem_filterMap]
        refine or_congr_right ⟨?_, ?_⟩
        · rintro ⟨specifier, hmem, h⟩
          exact .ofImport hmem (ImportSpecifier.name?_eq_some_iff.1 h)
        · rintro ⟨hmem, h⟩
          exact ⟨_, hmem, ImportSpecifier.name?_eq_some_iff.2 h⟩
    · exact hnone rfl (by rintro ⟨⟩)
  | ofDeclaration declaration =>
    rw [addStatement, hbind, declaration.mem_names_iff]
    refine or_congr_right ⟨.ofDeclaration, ?_⟩
    rintro (_ | h)
    exact h
  | exportNamed declaration =>
    cases declaration with
    | none => exact hnone rfl (by rintro ⟨⟩)
    | some declaration =>
      rw [addStatement, hbind, declaration.mem_names_iff]
      refine or_congr_right ⟨.exportNamed, ?_⟩
      rintro (_ | _ | h)
      exact h
  | exportDefault value =>
    cases value with
    | object members => exact hnone rfl (by rintro ⟨⟩)
    | call arguments =>
      -- Options of a component bind nothing, wherever they are given.
      refine hnone ?_ (by rintro ⟨⟩)
      rcases arguments with _ | ⟨_ | _, _⟩ <;> rfl
    | ofFunction bound =>
      rw [addStatement, hbind, Option.mem_toList]
      refine or_congr_right ⟨?_, ?_⟩
      · rintro rfl
        exact .exportFunction name
      · rintro ⟨⟩
        rfl
    | ofClass bound =>
      rw [addStatement, hbind, Option.mem_toList]
      refine or_congr_right ⟨?_, ?_⟩
      · rintro rfl
        exact .exportClass name
      · rintro ⟨⟩
        rfl
    | other => exact hnone rfl (by rintro ⟨⟩)
  | other => exact hnone rfl (by rintro ⟨⟩)

/-- Statements add the names that any of them binds. -/
theorem Offer.mem_names_foldl (statements : List Statement) (offer : Offer) :
    name ∈ (statements.foldl addStatement offer).names ↔
      name ∈ offer.names ∨ ∃ statement ∈ statements, statement.Binds name := by
  induction statements generalizing offer with
  | nil => simp
  | cons statement statements ih =>
    rw [List.foldl_cons, ih, mem_names_addStatement, or_assoc]
    simp

theorem bind_of_mem {bindings : List ScriptBinding}
    (h : ∃ binding ∈ bindings, binding.name = name) : bind setup bindings name = bindings :=
  if_pos (by simpa using h)

theorem bind_of_not_mem {bindings : List ScriptBinding}
    (h : ¬∃ binding ∈ bindings, binding.name = name) :
    bind setup bindings name = bindings ++ [⟨name, setup⟩] :=
  if_neg (by simpa using h)

theorem exists_mem_foldl_bind (names : List String) (bindings : List ScriptBinding) :
    (∃ binding ∈ names.foldl (bind setup) bindings, binding.name = name) ↔
      (∃ binding ∈ bindings, binding.name = name) ∨ name ∈ names := by
  induction names generalizing bindings with
  | nil => simp
  | cons added names ih =>
    rw [List.foldl_cons, ih, List.mem_cons, ← or_assoc]
    refine or_congr_left ?_
    by_cases hadded : ∃ binding ∈ bindings, binding.name = added
    · rw [bind_of_mem hadded, iff_self_or]
      rintro rfl
      exact hadded
    · simp [bind_of_not_mem hadded, or_and_right, exists_or, eq_comm]

/-- Of the names of a script those are its own that were not bound before. -/
theorem exists_mem_foldl_bind_setup (names : List String) (bindings : List ScriptBinding) :
    (∃ binding ∈ names.foldl (bind setup) bindings,
        binding.setup = true ∧ binding.name = name) ↔
      (∃ binding ∈ bindings, binding.setup = true ∧ binding.name = name) ∨
        ((¬∃ binding ∈ bindings, binding.name = name) ∧ setup = true ∧ name ∈ names) := by
  induction names generalizing bindings with
  | nil => simp
  | cons added names ih =>
    rw [List.foldl_cons, ih, List.mem_cons]
    by_cases hadded : ∃ binding ∈ bindings, binding.name = added
    · rw [bind_of_mem hadded]
      refine or_congr_right (and_congr_right fun hnot => and_congr_right fun _ => ?_)
      refine (or_iff_right ?_).symm
      rintro rfl
      exact hnot hadded
    · rw [bind_of_not_mem hadded]
      simp only [List.mem_append, List.mem_singleton, or_and_right, exists_or, exists_eq_left]
      by_cases hname : name = added
      · subst hname
        simp only [hadded, true_or, or_true, not_true_eq_false, not_false_eq_true, false_and,
          true_and, or_false, and_true]
      · simp only [Ne.symm hname, hname, and_false, or_false, false_or]

theorem exists_first_cons {α : Type} {p q : α → Prop} {a : α} {l : List α} :
    (∃ before b after, a :: l = before ++ b :: after ∧ (∀ x ∈ before, ¬p x) ∧ q b) ↔
      q a ∨ (¬p a ∧ ∃ before b after, l = before ++ b :: after ∧ (∀ x ∈ before, ¬p x) ∧ q b) := by
  constructor
  · rintro ⟨_ | ⟨c, before⟩, b, after, heq, hbefore, hb⟩
    · obtain ⟨rfl, rfl⟩ := List.cons.inj heq
      exact .inl hb
    · obtain ⟨rfl, rfl⟩ := List.cons.inj heq
      obtain ⟨hc, hbefore⟩ := List.forall_mem_cons.1 hbefore
      exact .inr ⟨hc, before, b, after, rfl, hbefore, hb⟩
  · rintro (ha | ⟨ha, before, b, after, rfl, hbefore, hb⟩)
    · exact ⟨[], a, l, rfl, nofun, ha⟩
    · exact ⟨a :: before, b, after, rfl, List.forall_mem_cons.2 ⟨ha, hbefore⟩, hb⟩

section Blocks

variable [ScriptParser]

/-- A script adds the names that it binds. -/
theorem bound_addBlock (info : ScriptInfo) (block : ScriptBlock) (name : String) :
    (info.addBlock block).Bound name ↔ info.Bound name ∨ block.Binds name := by
  rw [addBlock, ScriptBlock.Binds]
  split
  · rename_i statements hstatements
    simp only [hstatements, Option.some.injEq, exists_eq_left', Bound, addStatements]
    rw [exists_mem_foldl_bind, Offer.mem_names_foldl]
    simp
  · rename_i hnone
    simp [hnone]

/-- A script makes those names setup bindings that no script in front of it binds. -/
theorem hasSetupBinding_addBlock (info : ScriptInfo) (block : ScriptBlock) (name : String) :
    (info.addBlock block).hasSetupBinding name = true ↔
      info.hasSetupBinding name = true ∨
        (¬info.Bound name ∧ block.setup = true ∧ block.Binds name) := by
  rw [addBlock, ScriptBlock.Binds]
  split
  · rename_i statements hstatements
    simp only [hstatements, Option.some.injEq, exists_eq_left', hasSetupBinding_iff, Bound,
      addStatements]
    rw [exists_mem_foldl_bind_setup, Offer.mem_names_foldl]
    simp
  · rename_i hnone
    simp [hnone]

/-! ### All scripts -/

/-- A name is a setup binding if it was one, or if the first script that binds it is a setup
    script. -/
theorem hasSetupBinding_foldl (blocks : List ScriptBlock) (info : ScriptInfo) (name : String) :
    (blocks.foldl addBlock info).hasSetupBinding name = true ↔
      info.hasSetupBinding name = true ∨
        (¬info.Bound name ∧ ∃ before block after, blocks = before ++ block :: after ∧
          (∀ block ∈ before, ¬block.Binds name) ∧ block.setup = true ∧ block.Binds name) := by
  induction blocks generalizing info with
  | nil => simp
  | cons block blocks ih =>
    rw [List.foldl_cons, ih, hasSetupBinding_addBlock, bound_addBlock]
    rw [exists_first_cons, not_or, or_assoc, and_or_left, and_assoc]

/-- A name is a setup binding if the first script that binds it is a setup script. -/
theorem hasSetupBinding_iff_first (blocks : List ScriptBlock) (name : String) :
    (scan blocks).hasSetupBinding name = true ↔
      ∃ before block after, blocks = before ++ block :: after ∧
        (∀ block ∈ before, ¬block.Binds name) ∧ block.setup = true ∧ block.Binds name := by
  rw [scan, hasSetupBinding_foldl, hasSetupBinding_iff]
  simp [Bound]

/-- A name is a setup binding if a setup script binds it, in whatever order the scripts come and
    whatever else they bind, unless a plain script takes the name. -/
theorem hasSetupBinding_scan {blocks : List ScriptBlock} {name : String}
    (h : ¬ScriptBlock.Takes blocks name) :
    (scan blocks).hasSetupBinding name = true ↔
      ∃ block ∈ blocks, block.setup = true ∧ block.Binds name := by
  classical
  rw [hasSetupBinding_iff_first]
  constructor
  · rintro ⟨before, block, after, rfl, -, hblock⟩
    exact ⟨block, by simp, hblock⟩
  · rintro ⟨block, hmem, hsetup, hbinds⟩
    obtain ⟨first, hfirst⟩ : ∃ first, blocks.find? (·.Binds name) = some first :=
      Option.isSome_iff_exists.1 (List.find?_isSome.2 ⟨block, hmem, decide_eq_true hbinds⟩)
    obtain ⟨hbinds', before, after, rfl, hbefore⟩ := List.find?_eq_some_iff_append.1 hfirst
    simp only [decide_eq_true_eq, Bool.not_eq_true', decide_eq_false_iff_not] at hbinds' hbefore
    by_cases hsetup' : first.setup = true
    · exact ⟨before, first, after, rfl, hbefore, hsetup', hbinds'⟩
    -- Otherwise the setup script stands behind a plain one that takes the name.
    refine absurd ⟨before, first, after, rfl, hbefore, ⟨Bool.eq_false_iff.2 hsetup', hbinds'⟩,
      block, ?_, hsetup, hbinds⟩ h
    rcases List.mem_append.1 hmem with hmem | hmem
    · exact absurd hbinds (hbefore block hmem)
    · refine (List.mem_cons.1 hmem).resolve_left ?_
      rintro rfl
      exact hsetup' hsetup

end Blocks

/-! ### Two scripts with one import -/

/-- The text `import Foo from './Foo.vue'` can be read: it imports what the other file exports by
    default. -/
local instance importParser : ScriptParser :=
  .ofList [("import Foo from './Foo.vue'", [.ofImport false (some [.ofDefault "Foo"])])]

/-- The script `import Foo from './Foo.vue'`, as a plain script or as a setup script. -/
def importing (setup : Bool) : ScriptBlock :=
  ⟨"import Foo from './Foo.vue'", 0, setup, none⟩

theorem binds_importing (setup : Bool) : (importing setup).Binds "Foo" :=
  ⟨_, rfl, _, List.mem_singleton_self _, .ofImport (List.mem_singleton_self _) (.ofDefault "Foo")⟩

/-- A plain script behind a setup script takes nothing from it. -/
theorem hasSetupBinding_scan_plain :
    (scan [importing true, importing false]).hasSetupBinding "Foo" = true := by
  refine (hasSetupBinding_scan ?_).2 ⟨importing true, by simp, rfl, binds_importing true⟩
  rintro ⟨_ | ⟨first, before⟩, plain, after, heq, hbefore, ⟨hplain, -⟩, -⟩
  · obtain rfl := (List.cons.inj heq).1
    cases hplain
  · obtain rfl := (List.cons.inj heq).1
    exact hbefore _ List.mem_cons_self (binds_importing true)

/-- A plain script in front of a setup script that imports the same takes the name from it. -/
theorem hasSetupBinding_scan_taken :
    (∃ block ∈ [importing false, importing true], block.setup = true ∧ block.Binds "Foo") ∧
      (scan [importing false, importing true]).hasSetupBinding "Foo" = false := by
  refine ⟨⟨importing true, by simp, rfl, binds_importing true⟩, ?_⟩
  decide +kernel

end ScriptInfo

end PugLint
