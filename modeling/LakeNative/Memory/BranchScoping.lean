import LakeNative.Memory.LoopScoping

/-! # Scopes in branches

A branch in which every reference is to a name whose last binding holds is lexically scoped, and
the converse is so wherever a `wait` names all the words that its handlers take.
-/

namespace LakeNative.Memory

open LakeNative.Runtime LakeNative.Compiler LakeNative.KnownFacts LakeNative.NumberedCode
open LakeNative.Transitions

variable {W : Type} {rt : RtFuncs W} {ctx : CompilerCtx}

/-! ## References in a branch -/

/-- The parameters enclose the body. -/
def branchEnv (patterns : List Pattern) : Env := ⟨(branchScope patterns).vars, 0⟩

section Branch

variable (rt : RtFuncs W) (ctx : CompilerCtx) (factor : Nat)

/-- A reference in the block of a number, with the slots that the compiler's table and the
innermost enclosing binding have for its name. An unrolled loop has the number 0. -/
def BranchRefers (patterns : List Pattern) (body : List Expr) (number : Nat) (name : String)
    (used bound : Option Nat) : Prop :=
  match unrollInfo ctx factor patterns body with
  | some info =>
      number = 0 ∧ LoopRefers info (branchEnv patterns) (max factor 2)
          (branchScope patterns).toBranchState name used bound ∨
        ∃ iterations state, compileIterations rt ctx info (branchScope patterns).toBranchState
            (max factor 2) = some (iterations, state) ∧
          Refers rt ctx (.seq 1 (exitScope info (branchScope patterns) state) info.exitBody)
            (branchEnv patterns) number name used bound
  | none =>
      Refers rt ctx (.body [] some 0 (branchScope patterns) body) (branchEnv patterns) number name
        used bound

/-- At every reference in a branch the compiled code reads the slot of the innermost enclosing
binding, and whatever slot a block reads in a run has such a reference in the block and is a
parameter's or was written by an earlier block. -/
structure LexicallyScoped (patterns : List Pattern) (body : List Expr) (code : Code W) : Prop where
  innermost : ∀ number name used bound,
    BranchRefers rt ctx factor patterns body number name used bound → used = bound
  written : ∀ start history final, Run (BlockStep rt code) start history final → start.blockId = 0 →
    ∀ block, (final.blockId, block) ∈ code → ∀ slot, Reads block final.ctx slot →
      (∃ name, BranchRefers rt ctx factor patterns body final.blockId name (some slot) (some slot)) ∧
      (slot < patterns.length ∨ ∃ stage ∈ history, ∃ earlier,
        (stage.state.blockId, earlier) ∈ code ∧ Overwrites earlier stage.state.ctx slot)

end Branch

/-! ## Names in a branch -/

def branchNames (patterns : List Pattern) : Names :=
  ⟨(branchScope patterns).vars.map Prod.fst, (branchScope patterns).lakeTypes, []⟩

/-- Behind a loop its own names are gone, and the parameters that they hid are not back. -/
def exitNames (patterns : List Pattern) (locals : List String) : Names where
  bound := (branchNames patterns).bound.filter fun name => name ∉ locals
  types := (branchNames patterns).types.filter fun entry => entry.1 ∉ locals
  ended := (branchNames patterns).bound.filter fun name => name ∈ locals

/-- The traversal of a branch by names. Of an unrolled loop only the exit can refer to a name
whose last binding has ended. -/
def walkBranch (ctx : CompilerCtx) (factor : Nat) (patterns : List Pattern) (body : List Expr) :
    Walk :=
  match unrollInfo ctx factor patterns body with
  | some info =>
      let locals := info.preStmts.filterMap PreStmt.local
      let exit := walkSeq ctx (exitNames patterns locals) info.exitBody
      { exit with named := exit.named &&
          patterns.getLast?.all fun pattern => pattern.ident ∉ locals }
  | none => walkSeq ctx (branchNames patterns) body

theorem tracks_branch (exact : Prop) (patterns : List Pattern) :
    Tracks exact (branchScope patterns) (branchEnv patterns) (branchNames patterns) where
  bound := rfl
  types := rfl
  holds := fun _ _ => rfl
  below := fun _ _ _ found => BranchState.slot_lt_len found
  ended := fun _ _ member => absurd member List.not_mem_nil

theorem enclosed_branch (patterns : List Pattern) :
    Enclosed (branchScope patterns).toBranchState (branchEnv patterns) := fun _ _ found => found

theorem covers_branch (patterns : List Pattern) :
    Covers { slot | slot < patterns.length } (branchEnv patterns) := by
  intro name slot found
  have below : slot < (branchScope patterns).len := BranchState.slot_lt_len found
  rwa [len_branchScope] at below

theorem get_branchScope {patterns : List Pattern} {name : String} :
    ((branchScope patterns).get name).isSome = true ↔ name ∈ (branchNames patterns).bound :=
  isSome_get (tracks_branch True patterns) name

/-- The exit of a loop is compiled without the names of the loop. -/
theorem tracks_exit {exact : Prop} {patterns : List Pattern} {info : TailLoopInfo}
    (named : patterns.all fun pattern => !(pattern.isWildcard || pattern.isLiteralGuard))
    (kept : exact → ∀ pattern ∈ patterns.getLast?,
      pattern.ident ∉ info.preStmts.filterMap PreStmt.local) :
    Tracks exact (exitScope info (branchScope patterns)
        ((branchScope patterns).without (info.preStmts.filterMap PreStmt.local)))
      (branchEnv patterns) (exitNames patterns (info.preStmts.filterMap PreStmt.local)) := by
  constructor
  · change (((branchScope patterns).vars.filter _).map Prod.fst) = List.filter _ (List.map _ _)
    rw [List.filter_map]
    rfl
  · rfl
  · intro name holds
    by_cases dropped : name ∈ info.preStmts.filterMap PreStmt.local
    · -- No parameter has the name.
      have notParam : name ∉ (branchNames patterns).bound := fun member =>
        holds (List.mem_filter.mpr ⟨member, decide_eq_true dropped⟩)
      rw [← get_branchScope, Option.not_isSome_iff_eq_none] at notParam
      exact (get_without_self dropped).trans notParam.symm
    · exact get_without dropped
  · intro isExact name slot found
    have inside : slot < (branchScope patterns).len := BranchState.slot_lt_len found
    rw [len_branchScope] at inside
    exact inside.trans_le (params_le_left named (kept isExact))
  · intro isExact name isEnded
    rcases List.mem_filter.mp isEnded with ⟨isParam, dropped⟩
    have found := get_branchScope.mpr isParam
    have gone : (exitScope info (branchScope patterns) ((branchScope patterns).without
        (info.preStmts.filterMap PreStmt.local))).get name = none :=
      get_without_self (of_decide_eq_true dropped)
    rw [gone]
    intro same
    rw [show (branchScope patterns).get name = none from same.symm] at found
    cases found

/-! ## Branches -/

/-- The parts of a loop that is compiled. -/
theorem loop_cases {factor : Nat} {patterns : List Pattern} {body : List Expr} {info : TailLoopInfo}
    {emitted : Emitted W} (isInfo : unrollInfo ctx factor patterns body = some info)
    (compiled : compileBranch rt ctx factor patterns body = some emitted) :
    (patterns.all fun pattern => !(pattern.isWildcard || pattern.isLiteralGuard)) = true ∧
      info.selfArgs.length = patterns.length ∧
      ∃ iterations exit, compileIterations rt ctx info (branchScope patterns).toBranchState
          (max factor 2) = some (iterations, (branchScope patterns).without
            (info.preStmts.filterMap PreStmt.local)) ∧
        compileSeq rt ctx 1 (exitScope info (branchScope patterns) ((branchScope patterns).without
          (info.preStmts.filterMap PreStmt.local))) info.exitBody = some exit ∧
        emitted = { exit with code := (0, chunkBlock rt info patterns.length iterations) :: exit.code } := by
  rw [compileBranch, isInfo] at compiled
  rcases bind_some compiled with ⟨⟨iterations, state⟩, isIterations, later⟩
  rcases bind_some later with ⟨exit, isExit, result⟩
  have left : state = (branchScope patterns).without (info.preStmts.filterMap PreStmt.local) := by
    rw [show max factor 2 = (max factor 2 - 1) + 1 by omega] at isIterations
    exact state_compileIterations isIterations
  rw [left] at isIterations isExit
  rw [unrollInfo] at isInfo
  split at isInfo
  · rename_i shape
    rcases detectTailLoop_cases isInfo with ⟨-, loop, -, -, -, -, -, -, isArm, -⟩
    exact ⟨shape.2, selfArm_length isArm, iterations, exit, isIterations, isExit,
      (Option.some.inj result).symm⟩
  · cases isInfo

/-- Names that hold are lexical references, and where the words of every `wait` are named there are
no others. -/
theorem lexical_body {factor : Nat} {patterns : List Pattern} {body : List Expr}
    (standard : unrollInfo ctx factor patterns body = none) :
    ((walkBranch ctx factor patterns body).clean = true →
        lexicalSeq ctx (branchScope patterns) (branchEnv patterns) body = true) ∧
      ((walkBranch ctx factor patterns body).named = true →
        lexicalSeq ctx (branchScope patterns) (branchEnv patterns) body = true →
        (walkBranch ctx factor patterns body).clean = true) := by
  rw [walkBranch, standard]
  dsimp only
  rcases walked_seq body (branchScope patterns) (branchEnv patterns) (branchNames patterns)
    (tracks_branch ((walkSeq ctx (branchNames patterns) body).named = true) patterns)
    (fun named => named) with ⟨behind, walked⟩
  exact ⟨walked.sound, walked.complete⟩

theorem lexical_exit {factor : Nat} {patterns : List Pattern} {body : List Expr} {info : TailLoopInfo}
    (isInfo : unrollInfo ctx factor patterns body = some info)
    (named : patterns.all fun pattern => !(pattern.isWildcard || pattern.isLiteralGuard)) :
    let scope := exitScope info (branchScope patterns)
      ((branchScope patterns).without (info.preStmts.filterMap PreStmt.local))
    ((walkBranch ctx factor patterns body).clean = true →
        lexicalSeq ctx scope (branchEnv patterns) info.exitBody = true) ∧
      ((walkBranch ctx factor patterns body).named = true →
        lexicalSeq ctx scope (branchEnv patterns) info.exitBody = true →
        (walkBranch ctx factor patterns body).clean = true) := by
  rw [walkBranch, isInfo]
  dsimp only
  let locals := info.preStmts.filterMap PreStmt.local
  let exact := ((walkSeq ctx (exitNames patterns locals) info.exitBody).named &&
    patterns.getLast?.all fun pattern => pattern.ident ∉ locals) = true
  have kept : exact → ∀ pattern ∈ patterns.getLast?, pattern.ident ∉ locals := by
    intro isExact pattern isLast
    have all := ((Bool.and_eq_true _ _).mp isExact).2
    rw [show patterns.getLast? = some pattern from isLast] at all
    exact of_decide_eq_true all
  rcases walked_seq info.exitBody _ (branchEnv patterns) (exitNames patterns locals)
    (tracks_exit named kept) (fun isExact => ((Bool.and_eq_true _ _).mp isExact).1) with
    ⟨behind, walked⟩
  exact ⟨walked.sound, walked.complete⟩

theorem branchRefers_body {factor : Nat} {patterns : List Pattern} {body : List Expr} {number : Nat}
    {name : String} {used bound : Option Nat}
    (standard : unrollInfo ctx factor patterns body = none) :
    BranchRefers rt ctx factor patterns body number name used bound ↔
      Refers rt ctx (.body [] some 0 (branchScope patterns) body) (branchEnv patterns) number name
        used bound := by
  rw [BranchRefers, standard]

theorem branchRefers_loop {factor : Nat} {patterns : List Pattern} {body : List Expr}
    {info : TailLoopInfo} {number : Nat} {name : String} {used bound : Option Nat}
    (isInfo : unrollInfo ctx factor patterns body = some info) :
    BranchRefers rt ctx factor patterns body number name used bound ↔
      number = 0 ∧ LoopRefers info (branchEnv patterns) (max factor 2)
          (branchScope patterns).toBranchState name used bound ∨
        ∃ iterations state, compileIterations rt ctx info (branchScope patterns).toBranchState
            (max factor 2) = some (iterations, state) ∧
          Refers rt ctx (.seq 1 (exitScope info (branchScope patterns) state) info.exitBody)
            (branchEnv patterns) number name used bound := by
  rw [BranchRefers, isInfo]

/-- The loop and its exit. -/
theorem passage_loop {factor : Nat} {patterns : List Pattern} {body : List Expr} {info : TailLoopInfo}
    {emitted : Emitted W} {may : Nat → Set Nat}
    (isInfo : unrollInfo ctx factor patterns body = some info)
    (compiled : compileBranch rt ctx factor patterns body = some emitted)
    (clean : (walkBranch ctx factor patterns body).clean = true)
    (allowed : ∀ number name slot,
      BranchRefers rt ctx factor patterns body number name (some slot) (some slot) →
        slot ∈ may number) :
    (readAnalysis may).Passage 0 emitted.nextId emitted.code { slot | slot < patterns.length }
      { slot | slot < patterns.length } [] [] := by
  rcases loop_cases isInfo compiled with
    ⟨named, arity, iterations, exit, isIterations, isExit, rfl⟩
  have lexical := (lexical_exit isInfo named).1 clean
  have exits := @scoped_seq W rt ctx info.exitBody 1 _ (branchEnv patterns) may _ exit isExit lexical
    (covers_branch patterns) fun number name slot refers =>
      allowed number name slot ((branchRefers_loop isInfo).mpr (.inr ⟨iterations, _, isIterations, refers⟩))
  have bodies := exits.beside (.nil _ _) (Nat.le_refl _) [] nofun
  have sound : (readAnalysis may).sound (0, chunkBlock rt info patterns.length iterations)
      { slot | slot < patterns.length } := by
    intro exec slot
    by_cases isRead : slot < patterns.length ∧ ∃ name bound, LoopRefers info (branchEnv patterns)
        (max factor 2) (branchScope patterns).toBranchState name (some slot) bound
    · rcases isRead with ⟨isParam, name, bound, refers⟩
      rw [← loop_agree refers isIterations (enclosed_branch patterns)] at refers
      exact .inl ⟨isParam, allowed 0 name slot ((branchRefers_loop isInfo).mpr (.inl ⟨rfl, refers⟩))⟩
    · right
      apply unread_chunk arity isIterations (len_branchScope patterns).le
      exact fun isParam name bound refers => isRead ⟨isParam, name, bound, refers⟩
  have entered := bodies.choice (redirectBlock exit.nextId) subset_rfl sound ?_
    (fun _ _ exec slot => .inr ((passes_redirect _).unread exec slot))
    fun _ next goes => (Option.some.inj goes).symm
  · simp only [List.append_nil, List.map_nil] at entered
    exact entered
  · intro exec next goes
    rcases leads_chunkBlock ⟨exec, goes⟩ with isHere | isExit
    · exact .inl isHere
    · exact .inr (.inr ⟨by simp [isExit], Set.subset_union_left⟩)

theorem passage_branch {factor : Nat} {patterns : List Pattern} {body : List Expr}
    {emitted : Emitted W} (may : Nat → Set Nat)
    (compiled : compileBranch rt ctx factor patterns body = some emitted)
    (clean : (walkBranch ctx factor patterns body).clean = true)
    (allowed : ∀ number name slot,
      BranchRefers rt ctx factor patterns body number name (some slot) (some slot) →
        slot ∈ may number) :
    ∃ behind, (readAnalysis may).Passage 0 emitted.nextId emitted.code
      { slot | slot < patterns.length } behind [] [] := by
  cases isInfo : unrollInfo ctx factor patterns body with
  | some info => exact ⟨_, passage_loop isInfo compiled clean allowed⟩
  | none =>
      rw [compileBranch, isInfo] at compiled
      exact ⟨_, scoped_body body [] some 0 (branchScope patterns) (branchEnv patterns) may _ _ emitted
        compiled ((lexical_body isInfo).1 clean) (covers_branch patterns) (.fresh may _ 0 body)
        fun number name slot refers =>
          allowed number name slot ((branchRefers_body isInfo).mpr refers)⟩

theorem agree_branch {factor : Nat} {patterns : List Pattern} {body : List Expr}
    {emitted : Emitted W} (compiled : compileBranch rt ctx factor patterns body = some emitted)
    (clean : (walkBranch ctx factor patterns body).clean = true) {number : Nat} {name : String}
    {used bound : Option Nat}
    (refers : BranchRefers rt ctx factor patterns body number name used bound) : used = bound := by
  cases isInfo : unrollInfo ctx factor patterns body with
  | none => exact refers_agree ((branchRefers_body isInfo).mp refers) ((lexical_body isInfo).1 clean)
  | some info =>
      rcases loop_cases isInfo compiled with ⟨named, -, iterations, exit, isIterations, -, -⟩
      rcases (branchRefers_loop isInfo).mp refers with ⟨-, inLoop⟩ | ⟨others, state, isOthers, inExit⟩
      · exact loop_agree inLoop isIterations (enclosed_branch patterns)
      · rw [isIterations] at isOthers
        cases isOthers
        exact refers_agree inExit ((lexical_exit isInfo named).1 clean)

theorem clean_branch {factor : Nat} {patterns : List Pattern} {body : List Expr}
    {emitted : Emitted W} (compiled : compileBranch rt ctx factor patterns body = some emitted)
    (named : (walkBranch ctx factor patterns body).named = true)
    (agree : ∀ number name used bound,
      BranchRefers rt ctx factor patterns body number name used bound → used = bound) :
    (walkBranch ctx factor patterns body).clean = true := by
  cases isInfo : unrollInfo ctx factor patterns body with
  | none =>
      rw [compileBranch, isInfo] at compiled
      exact (lexical_body isInfo).2 named (agree_body body [] some 0 _ _ emitted compiled
        (Nat.le_refl 0) fun number name used bound refers =>
          agree number name used bound ((branchRefers_body isInfo).mpr refers))
  | some info =>
      rcases loop_cases isInfo compiled with ⟨allNamed, -, iterations, exit, isIterations, isExit, -⟩
      exact (lexical_exit isInfo allNamed).2 named (agree_seq info.exitBody 1 _ _ exit isExit
        fun number name used bound refers => agree number name used bound
          ((branchRefers_loop isInfo).mpr (.inr ⟨iterations, _, isIterations, refers⟩)))

/-- A branch that refers only to names whose last binding holds is lexically scoped. Where every
`wait` names all the words that its handlers take no other branch is. -/
theorem lexical_scoping {factor : Nat} {patterns : List Pattern} {body : List Expr}
    {emitted : Emitted W} (compiled : compileBranch rt ctx factor patterns body = some emitted) :
    ((walkBranch ctx factor patterns body).clean = true →
        LexicallyScoped rt ctx factor patterns body emitted.code) ∧
      ((walkBranch ctx factor patterns body).named = true →
        LexicallyScoped rt ctx factor patterns body emitted.code →
        (walkBranch ctx factor patterns body).clean = true) := by
  refine ⟨fun clean => ⟨fun _ _ _ _ refers => agree_branch compiled clean refers, ?_⟩,
    fun named isScoped => clean_branch compiled named isScoped.innermost⟩
  intro start history final run isStart block member slot reads
  let may := fun number => { slot | ∃ name,
    BranchRefers rt ctx factor patterns body number name (some slot) (some slot) }
  rcases passage_branch may compiled clean fun number name slot refers => ⟨name, refers⟩ with
    ⟨behind, passage⟩
  have follows : ∀ (block : Block W) (current : Point W) (exit : Exit) (next : Point W),
      BlockRuns rt block current exit next →
        (readAnalysis may).goes block current.ctx next.blockId := by
    intro block current exit next runs
    rcases runs with ⟨result, -, resumes, -⟩
    change (block _).2.resume = _
    rw [result]
    exact resumes
  rcases passage.run_sound follows run isStart with ⟨facts, sound, gained⟩
  rcases sound block member final.ctx slot with ⟨isKnown, mayRead⟩ | unread
  · exact ⟨mayRead, gained slot isKnown⟩
  · exact absurd unread reads

/-! ## Two branches -/

def letBool (value : Bool) : Expr := .letVar "x" (.plain "bool") (some (.bool value))

/-- `when false { true -> { let x = true } false -> { true } }` -/
def whenBound : Expr :=
  .when (.bool false) [(.bool true, [letBool true]), (.bool false, [.bool true])]

/-- `let x = false` and `x` around the `when`. -/
def boundInArm : List Expr := [letBool false, whenBound, .var "x" (.plain "bool")]

/-- The `x` behind the `when` has the slot of the arm that is not taken. -/
theorem arm_binding_leaks : ∃ emitted : Emitted Unit,
    compileBranch .idle .bare 1 [] boundInArm = some emitted ∧
      ¬ LexicallyScoped .idle .bare 1 [] boundInArm emitted.code := by
  have accepted : (compileBranch .idle .bare 1 [] boundInArm).isSome := by decide +kernel
  rcases Option.isSome_iff_exists.mp accepted with ⟨emitted, compiled⟩
  refine ⟨emitted, compiled, fun isScoped => ?_⟩
  have leaves : (compileExpr RtFuncs.idle .bare 1
      ((branchScope []).insertWithLakeType "x" (.plain "bool")) whenBound).map
      (fun first => (first.outcome.isTerminal, first.scope.get "x")) = some (false, some 1) := by
    decide +kernel
  rcases Option.map_eq_some_iff.mp leaves with ⟨first, isFirst, result⟩
  rcases Prod.mk.inj result with ⟨goesOn, uses⟩
  rcases first with ⟨_ | _ | _, code, scope, starts, redirects⟩
  · have behindWhen : Refers RtFuncs.idle .bare
        (.body [] some 1 _ [whenBound, .var "x" (.plain "bool")]) ((branchEnv []).bind "x" 0) _ "x"
        (some 1) (some 0) :=
      .bodyTail rfl isFirst rfl (.bodyFast rfl (by decide) uses rfl (Nat.le_refl _) (lt_fastEnd rfl))
    have refers := isScoped.innermost _ "x" (some 1) (some 0)
      ((branchRefers_body rfl).mpr (.bodyFlush rfl rfl rfl behindWhen))
    cases refers
  · cases goesOn
  · cases goesOn

/-- `let x = true  when x { true -> { let y = x  y } false -> { x } }  x` and a message whose word
is called `x` as well. -/
def boundInBody : List Expr :=
  [letBool true,
    .when (.var "x" (.plain "bool"))
      [(.bool true, [.letVar "y" (.plain "bool") (some (.var "x" (.plain "bool"))),
          .var "y" (.plain "bool")]),
        (.bool false, [.var "x" (.plain "bool")])],
    .var "x" (.plain "bool"),
    .wait [([⟨"x", .plain "i64", .var⟩],
      [.letVar "y" (.plain "i64") (some (.var "x" (.plain "i64"))), .var "y" (.plain "i64")])] []]

theorem body_binding_scoped : ∃ emitted : Emitted Unit,
    compileBranch .idle .bare 1 [] boundInBody = some emitted ∧
      LexicallyScoped .idle .bare 1 [] boundInBody emitted.code := by
  have accepted : (compileBranch .idle .bare 1 [] boundInBody).isSome := by decide +kernel
  rcases Option.isSome_iff_exists.mp accepted with ⟨emitted, compiled⟩
  exact ⟨emitted, compiled, (lexical_scoping compiled).1 (by decide +kernel)⟩

end LakeNative.Memory
