import PugLint.Linter
import PugLint.Proofs.Cache
import PugLint.Proofs.Component
import PugLint.Proofs.Session

/-!
# Caching

A process has any number of linters, each with the sessions it keeps, and one
cache of token streams for all of them. What is kept is found again under a key
that says little: a stream under the text and the byte where its template
starts, a session under the text and a digest of the rules and the mode. It is
still the right one, because a key determines the template block that its entry
was made for, whatever was done in between. Nothing is asked of the caches but
that they change no entry, and nothing of the parser of scripts.

* `LintMode.block?`: the template block that a text is checked for in a mode;
* `offset_inj_block?`: the byte where a block starts tells the blocks of a text
  apart;
* `Linter.lintBlock_ofRegistry`: what a linter without sessions says of a block;
* `Linter.Current`, `StreamCache.Current`: every entry is what would be computed
  afresh, preserved by every call;
* `Process.answers_start`: no call can tell that there are caches.
-/

namespace PugLint

/-! ### Blocks of a text -/

/-- The template block that a text is checked for in a mode, together with what
    the scripts offer to it. -/
def LintMode.block? [ScriptParser] : LintMode → String → Option (TemplateBlock × ScriptInfo)
  | template, source => some (.bare source, {})
  | component, source =>
    match Component.parse source with
    | .ok parts =>
      (parts.template.filter TemplateBlock.isPug).map (·, ScriptInfo.scan parts.scripts)
    | .error _ => none

namespace LintMode

variable [ScriptParser] {mode mode' : LintMode} {source : String} {block block' : TemplateBlock}
  {script script' : ScriptInfo}

/-- The block of a component comes out of its blocks. -/
theorem exists_parse_of_block? (h : component.block? source = some (block, script)) :
    ∃ parts, Component.parse source = .ok parts ∧ parts.template = some block := by
  rw [block?] at h
  split at h
  · rename_i parts hparse
    obtain ⟨template, ht, hpair⟩ := Option.map_eq_some_iff.1 h
    obtain ⟨rfl, -⟩ := Prod.mk.inj hpair
    exact ⟨parts, hparse, (Option.filter_eq_some_iff.1 ht).1⟩
  · cases h

/-- A bare template starts at the first byte and the template of a component
    does not: the byte where a block starts tells the blocks of a text apart. -/
theorem offset_inj_block? (h : mode.block? source = some (block, script))
    (h' : mode'.block? source = some (block', script')) (hoffset : block.offset = block'.offset) :
    block = block' := by
  have hbare {b s} (hb : template.block? source = some (b, s)) : b.offset = 0 := by
    cases hb
    rfl
  have hparsed {b s} (hb : component.block? source = some (b, s)) : b.offset ≠ 0 := by
    obtain ⟨parts, hparse, ht⟩ := exists_parse_of_block? hb
    exact Nat.pos_iff_ne_zero.1 (Component.offset_pos_of_parse hparse ht)
  cases mode <;> cases mode'
  case template.component => exact absurd (hoffset ▸ hbare h) (hparsed h')
  case component.template => exact absurd (hoffset ▸ hbare h') (hparsed h)
  all_goals
    rw [h] at h'
    cases h'
    rfl

end LintMode

/-! ### Streams -/

namespace StreamCache

variable [Caching] [ScriptParser] {mode : LintMode} {source : String} {block : TemplateBlock}
  {script : ScriptInfo} {streams : StreamCache}

/-- Every kept stream is that of any block of its text that starts at its byte. -/
def Current (streams : StreamCache) : Prop :=
  Caching.Keeps (fun key stream => ∀ mode block script,
    LintMode.block? mode key.1 = some (block, script) → block.offset = key.2 →
      stream = TokenStream.ofBlock block) streams

theorem current_start : start.Current :=
  Caching.keeps_empty _

theorem Current.clear (streams : StreamCache) : streams.clear.Current :=
  Caching.keeps_clear _

theorem Current.resize (h : streams.Current) (capacity : Nat) : (streams.resize capacity).Current :=
  Caching.Keeps.resize h capacity

/-- The stream of a block is the same, kept or new. -/
theorem Current.stream (h : streams.Current) (hblock : mode.block? source = some (block, script)) :
    (streams.stream source block).1 = TokenStream.ofBlock block ∧
      (streams.stream source block).2.Current := by
  have hkept := Caching.Keeps.get? h (source, block.offset)
  have hfound := h (source, block.offset)
  unfold StreamCache.stream
  split
  · rename_i stream streams' heq
    rw [heq] at hkept hfound
    exact ⟨hfound stream rfl mode block script hblock rfl, hkept⟩
  · rename_i streams' heq
    rw [heq] at hkept
    refine ⟨rfl, Caching.Keeps.put hkept fun mode' block' script' hblock' hoffset => ?_⟩
    rw [LintMode.offset_inj_block? hblock hblock' hoffset.symm]

end StreamCache

/-! ### Sessions -/

/-- The assumption under which the sessions of a registry are told apart: the
    digests of its keys differ for the two modes. -/
def Registry.SeparatesModes (registry : Registry) : Prop :=
  Text.extendDigest registry.fingerprint LintMode.template.word ≠
    Text.extendDigest registry.fingerprint LintMode.component.word

namespace Registry

variable {registry : Registry} {mode mode' : LintMode}

theorem SeparatesModes.eq_of_digest_eq (h : registry.SeparatesModes)
    (heq : Text.extendDigest registry.fingerprint mode.word =
      Text.extendDigest registry.fingerprint mode'.word) : mode = mode' := by
  cases mode <;> cases mode'
  case template.component => exact absurd heq h
  case component.template => exact absurd heq.symm h
  all_goals rfl

/-- The session of a block after all rules of a registry have run, with the
    stream made afresh. -/
def check (registry : Registry) (source : String) (block : TemplateBlock)
    (script : ScriptInfo) : Session :=
  Session.check (.ofStream source block script (TokenStream.ofBlock block)) registry.rules

end Registry

namespace Linter

variable [Caching] {registry : Registry} {source filename : String} {block : TemplateBlock}
  {script : ScriptInfo}

/-! ### New linters -/

theorem session_ofRegistry (registry : Registry) (key : String × UInt64) (block : TemplateBlock)
    (script : ScriptInfo) :
    ((ofRegistry registry).session .start key block script).1 =
        .start (.ofStream key.1 block script (TokenStream.ofBlock block)) ∧
      ((ofRegistry registry).session .start key block script).2.1.registry = registry := by
  have hstream : (StreamCache.start.stream key.1 block).1 = TokenStream.ofBlock block := by
    unfold StreamCache.stream
    split
    · rename_i heq
      cases (congrArg Prod.fst heq).symm.trans (Caching.get?_empty ..)
    · rfl
  unfold session
  split
  · rename_i heq
    cases (congrArg Prod.fst heq).symm.trans (Caching.get?_empty ..)
  · exact ⟨congrArg Session.start (congrArg _ hstream), rfl⟩

/-- A new linter with new caches checks a block with nothing but its rules. -/
theorem lintBlock_ofRegistry (registry : Registry) (mode : LintMode) (source filename : String)
    (block : TemplateBlock) (script : ScriptInfo) :
    ((ofRegistry registry).lintBlock .start mode source filename block script).1 =
      .ofDiagnostics filename (registry.check source block script).diagnostics
        (registry.check source block script).used := by
  obtain ⟨hsession, hregistry⟩ := session_ofRegistry registry
    (source, Text.extendDigest (ofRegistry registry).fingerprint mode.word) block script
  simp only [lintBlock, hsession, hregistry]
  rfl

theorem lintTemplate_ofRegistry (registry : Registry) (source filename : String) :
    ((ofRegistry registry).lintTemplate .start source filename).1 =
      .ofDiagnostics filename (registry.check source (.bare source) {}).diagnostics
        (registry.check source (.bare source) {}).used :=
  lintBlock_ofRegistry ..

/-! ### Checks in a mode -/

variable [ScriptParser] {linter : Linter} {streams : StreamCache} {mode : LintMode}

/-- Checks a text in a mode. -/
def lint (linter : Linter) (streams : StreamCache) (mode : LintMode)
    (source filename : String) : LintResult × Linter × StreamCache :=
  match mode with
  | .template => linter.lintTemplate streams source filename
  | .component => linter.lintComponent streams source filename

/-- A text with a block is checked for it. -/
theorem lint_of_block? (h : mode.block? source = some (block, script)) :
    linter.lint streams mode source filename =
      linter.lintBlock streams mode source filename block script := by
  cases mode with
  | template =>
    cases h
    rfl
  | component =>
    rw [LintMode.block?] at h
    split at h
    · rename_i parts hparse
      obtain ⟨template, ht, hpair⟩ := Option.map_eq_some_iff.1 h
      cases hpair
      simp only [lint, lintComponent, hparse, ht]
    · cases h

/-- A text without a block is answered without rules and caches. -/
theorem exists_lint_of_block?_eq_none (h : mode.block? source = none) (filename : String) :
    ∃ result, ∀ linter streams,
      lint linter streams mode source filename = (result, linter, streams) := by
  cases mode with
  | template => cases h
  | component =>
    rw [LintMode.block?] at h
    split at h
    · rename_i parts hparse
      rw [Option.map_eq_none_iff] at h
      refine ⟨.empty filename, fun linter streams => ?_⟩
      simp only [lint, lintComponent, hparse, h]
    · rename_i error hparse
      refine ⟨.ofDiagnostics filename
        (if isComponentName filename then [environmentDiagnostic error.message] else []) [],
        fun linter streams => ?_⟩
      simp only [lint, lintComponent, hparse]

/-- A linter works with the digest of its rules, and every session it keeps is
    the one that would be made afresh for any block with its key. -/
structure Current (linter : Linter) : Prop where
  /-- The digest is that of the rules. -/
  fingerprint : linter.fingerprint = linter.registry.fingerprint
  /-- Kept sessions are as new ones. -/
  sessions : Caching.Keeps (fun key session => ∀ mode block script,
    LintMode.block? mode key.1 = some (block, script) →
      key.2 = Text.extendDigest linter.registry.fingerprint mode.word →
        session = linter.registry.check key.1 block script) linter.sessions

theorem current_ofRegistry (registry : Registry) : (ofRegistry registry).Current :=
  ⟨rfl, Caching.keeps_empty _⟩

theorem Current.withCapacity (h : linter.Current) (capacity : Nat) :
    (linter.withCapacity capacity).Current :=
  ⟨h.fingerprint, h.sessions.resize capacity⟩

theorem Current.clear (h : linter.Current) : linter.clear.Current :=
  ⟨h.fingerprint, Caching.keeps_clear _⟩

/-- The session that a check starts from is kept and complete, or new and
    without rules: with the rules of the linter it comes out the same. -/
theorem Current.session (h : linter.Current) (hs : streams.Current)
    (hblock : mode.block? source = some (block, script)) {key : String × UInt64}
    (hkey : key = (source, Text.extendDigest linter.fingerprint mode.word)) :
    let answer := linter.session streams key block script
    (answer.1.registerAll linter.registry.rules).run = linter.registry.check source block script ∧
      answer.2.1.registry = linter.registry ∧ answer.2.1.Current ∧ answer.2.2.Current := by
  subst hkey
  have hkept := h.sessions.get? (source, Text.extendDigest linter.fingerprint mode.word)
  have hfound := h.sessions (source, Text.extendDigest linter.fingerprint mode.word)
  obtain ⟨hstream, hs'⟩ := hs.stream hblock
  rcases hget : Caching.get? linter.sessions
    (source, Text.extendDigest linter.fingerprint mode.word) with ⟨session | session, sessions⟩
  · rw [hget] at hkept
    simp only [Linter.session, hget, hstream]
    exact ⟨rfl, trivial, ⟨h.fingerprint, hkept⟩, hs'⟩
  · rw [hget] at hkept hfound
    simp only [Linter.session, hget]
    refine ⟨?_, trivial, ⟨h.fingerprint, hkept⟩, hs⟩
    rw [hfound session rfl mode block script hblock (by rw [h.fingerprint])]
    exact Session.recheck _ _

/-- A check of a block gives the result of fresh caches. -/
theorem Current.lintBlock_fst (h : linter.Current) (hs : streams.Current)
    (hblock : mode.block? source = some (block, script)) (filename : String) :
    (linter.lintBlock streams mode source filename block script).1 =
      .ofDiagnostics filename (linter.registry.check source block script).diagnostics
        (linter.registry.check source block script).used := by
  obtain ⟨hrun, hregistry, -, -⟩ := h.session hs hblock rfl
  simp only [Linter.lintBlock, hregistry, hrun]

/-- A check of a block leaves nothing in the caches that fresh ones would not
    hold. -/
theorem Current.lintBlock_snd (h : linter.Current) (hsep : linter.registry.SeparatesModes)
    (hs : streams.Current) (hblock : mode.block? source = some (block, script))
    (filename : String) :
    let answer := linter.lintBlock streams mode source filename block script
    answer.2.1.registry = linter.registry ∧ answer.2.1.Current ∧ answer.2.2.Current := by
  have hsession := h.session hs hblock rfl
  rcases hanswer : linter.session streams
    (source, Text.extendDigest linter.fingerprint mode.word) block script
    with ⟨session, linter', streams'⟩
  rw [hanswer] at hsession
  obtain ⟨hrun, hregistry, hcurrent, hs'⟩ := hsession
  simp only at hrun hregistry hcurrent hs'
  simp only [Linter.lintBlock, hanswer, hregistry, hrun]
  refine ⟨trivial, ⟨hregistry ▸ hcurrent.fingerprint, ?_⟩, hs'⟩
  have hsessions := hcurrent.sessions
  rw [hregistry] at hsessions
  refine hsessions.put fun mode' block' script' hblock' hdigest => ?_
  -- The key speaks of the mode at hand, so it is the block at hand.
  rw [h.fingerprint] at hdigest
  cases hsep.eq_of_digest_eq hdigest
  rw [hblock] at hblock'
  cases hblock'
  rfl

/-- A new linter with new caches checks a text with a block with nothing but its rules. -/
theorem lint_ofRegistry (registry : Registry) (hblock : mode.block? source = some (block, script))
    (filename : String) :
    ((ofRegistry registry).lint .start mode source filename).1 =
      .ofDiagnostics filename (registry.check source block script).diagnostics
        (registry.check source block script).used := by
  rw [lint_of_block? hblock]
  exact lintBlock_ofRegistry ..

end Linter

/-- A check of a text gives the result of fresh caches and leaves nothing in the
    caches that fresh ones would not hold. -/
theorem Linter.Current.lint [Caching] [ScriptParser] {linter : Linter} {streams : StreamCache}
    (h : linter.Current) (hsep : linter.registry.SeparatesModes) (hs : streams.Current)
    (mode : LintMode) (source filename : String) :
    let answer := linter.lint streams mode source filename
    answer.1 = ((ofRegistry linter.registry).lint .start mode source filename).1 ∧
      answer.2.1.registry = linter.registry ∧ answer.2.1.Current ∧ answer.2.2.Current := by
  cases hblock : mode.block? source with
  | none =>
    obtain ⟨result, hresult⟩ := exists_lint_of_block?_eq_none hblock filename
    simp only [hresult]
    exact ⟨trivial, trivial, h, hs⟩
  | some found =>
    obtain ⟨block, script⟩ := found
    rw [lint_ofRegistry _ hblock, lint_of_block? hblock]
    exact ⟨h.lintBlock_fst hs hblock filename, h.lintBlock_snd hsep hs hblock filename⟩

/-! ### Processes -/

/-- The linters of a process and the streams that they share. -/
structure Process [Caching] where
  /-- The linters in the order in which they were made. -/
  linters : List Linter
  /-- The kept streams. -/
  streams : StreamCache

/-- What can be asked of a process; linters are given by their numbers. -/
inductive Call where
  /-- Makes a linter. -/
  | create (registry : Registry)
  /-- Checks a text. -/
  | lint (number : Nat) (mode : LintMode) (source filename : String)
  /-- Drops the sessions of a linter. -/
  | clear (number : Nat)
  /-- Gives a linter room for another number of sessions. -/
  | withCapacity (number capacity : Nat)
  /-- Drops the streams. -/
  | clearStreams
  /-- Makes room for another number of streams. -/
  | resizeStreams (capacity : Nat)

namespace Call

/-- The rules of the linter that a call makes. -/
def registry? : Call → Option Registry
  | create registry => some registry
  | _ => none

variable [Caching] [ScriptParser]

/-- The answer to a call in a process with empty caches, given the rules of the
    linters. -/
def freshAnswer (registries : List Registry) : Call → Option LintResult
  | lint number mode source filename =>
    registries[number]?.map fun registry =>
      ((Linter.ofRegistry registry).lint .start mode source filename).1
  | _ => none

/-- The answers to calls, each in a process with empty caches. -/
def freshAnswers (registries : List Registry) : List Call → List (Option LintResult)
  | [] => []
  | call :: calls =>
    call.freshAnswer registries :: freshAnswers (registries ++ call.registry?.toList) calls

end Call

namespace Process

section Answers

variable [Caching] [ScriptParser]

/-- A process without linters. -/
def start : Process := ⟨[], .start⟩

/-- The answer to a call, if it is a check, and the process behind it. -/
def call (process : Process) : Call → Option LintResult × Process
  | .create registry =>
    (none, { process with linters := process.linters ++ [.ofRegistry registry] })
  | .lint number mode source filename =>
    match process.linters[number]? with
    | some linter =>
      let (result, linter, streams) := linter.lint process.streams mode source filename
      (some result, ⟨process.linters.set number linter, streams⟩)
    | none => (none, process)
  | .clear number => (none, { process with linters := process.linters.modify number .clear })
  | .withCapacity number capacity =>
    (none, { process with linters := process.linters.modify number (.withCapacity · capacity) })
  | .clearStreams => (none, { process with streams := process.streams.clear })
  | .resizeStreams capacity => (none, { process with streams := process.streams.resize capacity })

/-- The answers to calls, one after the other. -/
def answers (process : Process) : List Call → List (Option LintResult)
  | [] => []
  | call :: calls => (process.call call).1 :: answers (process.call call).2 calls

/-- The linters of a process have the given rules, which keep the modes apart,
    and its caches hold nothing that fresh ones would not hold. -/
structure Current (process : Process) (registries : List Registry) : Prop where
  /-- The rules of the linters. -/
  rules : process.linters.map Linter.registry = registries
  /-- The digests of the keys differ for the two modes. -/
  separates : ∀ registry ∈ registries, registry.SeparatesModes
  /-- Kept sessions are as new ones. -/
  linters : ∀ linter ∈ process.linters, linter.Current
  /-- Kept streams are as new ones. -/
  streams : process.streams.Current

variable {process : Process} {registries : List Registry}

theorem current_start : start.Current [] :=
  ⟨rfl, fun _ h => absurd h List.not_mem_nil, fun _ h => absurd h List.not_mem_nil,
    StreamCache.current_start⟩

/-- A change of one linter that leaves its rules alone and its sessions current. -/
theorem Current.modify (h : process.Current registries) (number : Nat) {f : Linter → Linter}
    (hregistry : ∀ linter, (f linter).registry = linter.registry)
    (hcurrent : ∀ linter, linter.Current → (f linter).Current) :
    Current { process with linters := process.linters.modify number f } registries := by
  refine ⟨?_, h.separates, fun linter hm => ?_, h.streams⟩
  · rw [← h.rules]
    refine List.ext_getElem (by simp) fun i hi hi' => ?_
    simp only [List.getElem_map, List.getElem_modify]
    split
    · exact hregistry _
    · rfl
  · obtain ⟨i, hi, rfl⟩ := List.getElem_of_mem hm
    rw [List.getElem_modify]
    split
    · exact hcurrent _ (h.linters _ (List.getElem_mem _))
    · exact h.linters _ (List.getElem_mem _)

/-- One call is answered as with empty caches, and the caches stay current. -/
theorem Current.call (h : process.Current registries) (call : Call)
    (hsep : ∀ registry, call = .create registry → registry.SeparatesModes) :
    (process.call call).1 = call.freshAnswer registries ∧
      (process.call call).2.Current (registries ++ call.registry?.toList) := by
  have hnone (call : Call) (hc : call.registry? = none) :
      registries ++ call.registry?.toList = registries := by
    rw [hc, Option.toList_none, List.append_nil]
  cases call with
  | create registry =>
    refine ⟨rfl, ?_, ?_, ?_, h.streams⟩
    · simp [Process.call, Call.registry?, h.rules, Linter.ofRegistry]
    · intro registry' hm
      rcases List.mem_append.1 hm with hm | hm
      · exact h.separates _ hm
      · exact hsep registry' (by rw [List.mem_singleton.1 hm])
    · intro linter hm
      rcases List.mem_append.1 hm with hm | hm
      · exact h.linters _ hm
      · rw [List.mem_singleton.1 hm]
        exact Linter.current_ofRegistry registry
  | lint number mode source filename =>
    rw [hnone _ rfl, Call.freshAnswer, ← h.rules, List.getElem?_map, Process.call]
    split
    · rename_i linter hlinter
      have hm : linter ∈ process.linters := List.mem_of_getElem? hlinter
      have hr : linter.registry ∈ registries := h.rules ▸ List.mem_map_of_mem hm
      obtain ⟨hresult, hregistry, hcurrent, hstreams⟩ :=
        (h.linters _ hm).lint (h.separates _ hr) h.streams mode source filename
      rw [hlinter]
      refine ⟨congrArg some hresult, ?_, ?_, ?_, hstreams⟩
      · -- The linter that takes its place has the same rules.
        obtain ⟨hlt, hget⟩ := List.getElem?_eq_some_iff.1 hlinter
        rw [List.map_set, hregistry, ← hget, ← List.getElem_map Linter.registry (h := by simpa),
          List.set_getElem_self]
      · rw [h.rules]
        exact h.separates
      · intro linter' hm'
        rcases List.mem_or_eq_of_mem_set hm' with hm' | rfl
        · exact h.linters _ hm'
        · exact hcurrent
    · rename_i hlinter
      rw [hlinter]
      exact ⟨rfl, by rw [h.rules]; exact h⟩
  | clear number =>
    rw [hnone _ rfl]
    exact ⟨rfl, h.modify number (fun _ => rfl) fun _ hc => hc.clear⟩
  | withCapacity number capacity =>
    rw [hnone _ rfl]
    exact ⟨rfl, h.modify number (fun _ => rfl) fun _ hc => hc.withCapacity capacity⟩
  | clearStreams =>
    rw [hnone _ rfl]
    exact ⟨rfl, h.rules, h.separates, h.linters, .clear _⟩
  | resizeStreams capacity =>
    rw [hnone _ rfl]
    exact ⟨rfl, h.rules, h.separates, h.linters, h.streams.resize capacity⟩

/-- A run of calls is answered as with empty caches. -/
theorem Current.answers (h : process.Current registries) {calls : List Call}
    (hsep : ∀ registry, .create registry ∈ calls → registry.SeparatesModes) :
    process.answers calls = Call.freshAnswers registries calls := by
  induction calls generalizing process registries with
  | nil => rfl
  | cons call calls ih =>
    obtain ⟨hanswer, hcurrent⟩ :=
      h.call call fun registry heq => hsep registry (heq ▸ List.mem_cons_self)
    rw [Process.answers, Call.freshAnswers, hanswer,
      ih hcurrent fun registry hm => hsep registry (List.mem_cons_of_mem _ hm)]

/-- Caches are transparent: whatever was asked before, of whichever linters, every
    check is answered as by a new linter with the same rules in a process with
    empty caches. -/
theorem answers_start (calls : List Call)
    (hsep : ∀ registry, .create registry ∈ calls → registry.SeparatesModes) :
    start.answers calls = Call.freshAnswers [] calls :=
  current_start.answers hsep

end Answers

/-- Calls that meet every cache: a text as a template and as a component, again
    under another name, and after sessions and streams were dropped. -/
def mixedCalls : List Call :=
  let source := "<template lang=\"pug\">\nli(v-for=\"x in xs\") x\n</template>"
  [.create (.ofRules [.requireKey]), .lint 0 .component source "a.vue",
    .lint 0 .template source "a.pug", .resizeStreams 1, .create (.ofRules [.validFor]),
    .lint 1 .component source "b.vue", .clear 0, .lint 0 .component source "c.vue",
    .clearStreams, .withCapacity 1 0, .lint 1 .template source "d.pug"]

-- None of these texts has a script.
attribute [local instance] ScriptParser.never

theorem answers_mixedCalls :
    (∀ registry, .create registry ∈ mixedCalls → registry.SeparatesModes) ∧
      start.answers mixedCalls = Call.freshAnswers [] mixedCalls := by
  have hsep : ∀ registry, .create registry ∈ mixedCalls → registry.SeparatesModes := by
    intro registry hm
    simp only [mixedCalls, List.mem_cons, Call.create.injEq, reduceCtorEq, List.not_mem_nil,
      or_false, false_or] at hm
    rcases hm with rfl | rfl
    · unfold Registry.SeparatesModes
      decide +kernel
    · unfold Registry.SeparatesModes
      decide +kernel
  exact ⟨hsep, answers_start mixedCalls hsep⟩

end Process

end PugLint
