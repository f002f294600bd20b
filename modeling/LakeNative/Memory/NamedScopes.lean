import LakeNative.Compiler.NameScopes
import LakeNative.Memory.LexicalScoping

/-! # Names and slots

Where the last binding of a name holds, the compiler's table has the slot of the binding that
encloses the place.
-/

namespace LakeNative.Memory

open LakeNative.Runtime LakeNative.Compiler

variable {ctx : CompilerCtx}

/-! ## Tables that grow -/

theorem vars_insertAll (state : BranchState) (names : List String) :
    (state.insertAll names).vars = (names.zipIdx state.len).reverse ++ state.vars := by
  induction names generalizing state with
  | nil => rfl
  | cons name names induction =>
      have tail := induction (state.insert name)
      rw [BranchState.len_insert] at tail
      rw [BranchState.insertAll, List.foldl_cons]
      apply tail.trans
      rw [List.zipIdx_cons, List.reverse_cons, List.append_assoc]
      rfl

/-- Bindings are added to a table. -/
def Grows (before after : BranchState) : Prop := ∃ newer, after = before.insertAll newer

namespace Grows

variable {before between after : BranchState}

theorem refl (state : BranchState) : Grows state state := ⟨[], rfl⟩

theorem trans (first : Grows before between) (second : Grows between after) : Grows before after := by
  rcases first with ⟨newer, rfl⟩
  rcases second with ⟨others, rfl⟩
  refine ⟨newer ++ others, ?_⟩
  rw [BranchState.insertAll, BranchState.insertAll, BranchState.insertAll, List.foldl_append]

theorem insert (grows : Grows before after) (name : String) : Grows before (after.insert name) :=
  grows.trans ⟨[name], rfl⟩

theorem len_le (grows : Grows before after) : before.len ≤ after.len := by
  rcases grows with ⟨newer, rfl⟩
  rw [BranchState.len_insertAll]
  exact Nat.le_add_right _ _

end Grows

/-! ## Places -/

theorem lookup_map_slot (list : List (String × Nat)) (base : Nat) (name : String) :
    (list.map fun entry => (entry.1, base + entry.2)).lookup name =
      (list.lookup name).map (base + ·) := by
  induction list with
  | nil => rfl
  | cons entry list induction =>
      rw [List.map_cons, List.lookup_cons, List.lookup_cons, induction]
      split <;> rfl

/-- The slot of a name among those that are bound one behind the other. -/
theorem lookup_zipIdx (list : List String) (base : Nat) (name : String) :
    (list.zipIdx base).reverse.lookup name = (Names.place list name).map (base + ·) := by
  have shifted : list.zipIdx base = list.zipIdx.map fun entry => (entry.1, base + entry.2) := by
    rw [List.zipIdx_eq_map_add]
  rw [shifted, ← List.map_reverse, lookup_map_slot, Names.place]

theorem place_lt {list : List String} {name : String} {index : Nat}
    (isPlace : Names.place list name = some index) : name ∈ list ∧ index < list.length := by
  rcases List.lookup_eq_some_iff.mp isPlace with ⟨front, back, isList, -⟩
  have member : (name, index) ∈ list.zipIdx := by
    rw [← List.mem_reverse, isList]
    exact List.mem_append_right _ List.mem_cons_self
  rcases List.mem_zipIdx_iff_getElem?.mp member with atIndex
  exact ⟨List.mem_of_getElem? atIndex, (List.getElem?_eq_some_iff.mp atIndex).1⟩

theorem place_isSome {list : List String} {name : String} (member : name ∈ list) :
    ∃ index, Names.place list name = some index := by
  rcases List.getElem?_of_mem member with ⟨index, atIndex⟩
  cases isPlace : Names.place list name with
  | some found => exact ⟨found, rfl⟩
  | none =>
      have different := List.lookup_eq_none_iff.mp isPlace (name, index)
        (List.mem_reverse.mpr (List.mem_zipIdx_iff_getElem?.mpr atIndex))
      simp at different

theorem get_insertAll_place (state : BranchState) (names : List String) (name : String) :
    (state.insertAll names).get name =
      ((Names.place names name).map (state.len + ·)).or (state.get name) := by
  rw [BranchState.get, vars_insertAll, List.lookup_append, lookup_zipIdx]
  rfl

/-! ## What names say of a table -/

/-- The table has the names in their order, and for each whose last binding holds the slot of the
binding that encloses the place. In exact tables the others have another slot. -/
structure Tracks (exact : Prop) (scope : Scope) (env : Env) (names : Names) : Prop where
  bound : scope.vars.map Prod.fst = names.bound
  types : scope.lakeTypes = names.types
  holds : ∀ name, name ∉ names.ended → scope.get name = env.get name
  below : exact → ∀ name slot, env.get name = some slot → slot < scope.len
  ended : exact → ∀ name ∈ names.ended, scope.get name ≠ env.get name

namespace Tracks

variable {exact : Prop} {scope after : Scope} {env other : Env} {names behind : Names}

/-- A reference to names that hold is lexical. -/
theorem sees (tracks : Tracks exact scope env names) {refs : List String}
    (hold : names.hold refs = true) : env.sees scope.toBranchState refs = true := by
  rw [Env.sees, List.all_eq_true]
  intro name member
  have holds := of_decide_eq_true (List.all_eq_true.mp hold name member)
  rw [tracks.holds name holds]
  exact beq_self_eq_true _

theorem hold (tracks : Tracks exact scope env names) (isExact : exact) {refs : List String}
    (sees : env.sees scope.toBranchState refs = true) : names.hold refs = true := by
  rw [Names.hold, List.all_eq_true]
  intro name member
  rw [decide_eq_true_eq]
  intro isEnded
  exact tracks.ended isExact name isEnded (eq_of_beq (List.all_eq_true.mp sees name member))

theorem bind (tracks : Tracks exact scope env names) (ident : String) (ty : Ty) :
    Tracks exact (scope.insertWithLakeType ident ty) (env.bind ident scope.len)
      (names.bind ident ty) where
  bound := congrArg (ident :: ·) tracks.bound
  types := congrArg ((ident, ty.toString) :: ·) tracks.types
  holds := by
    intro name holds
    change ((ident, scope.len) :: scope.vars).lookup name = ((ident, scope.len) :: env.vars).lookup name
    rw [List.lookup_cons, List.lookup_cons]
    cases isName : name == ident with
    | true => rfl
    | false =>
        apply tracks.holds name
        intro isEnded
        exact holds (List.mem_filter.mpr ⟨isEnded, by simpa using isName⟩)
  below := by
    intro isExact name slot found
    change slot < (scope.insert ident).len
    rw [BranchState.len_insert]
    change ((ident, scope.len) :: env.vars).lookup name = some slot at found
    rw [List.lookup_cons] at found
    split at found
    · cases found
      exact Nat.lt_succ_self _
    · exact Nat.lt_succ_of_lt (tracks.below isExact name slot found)
  ended := by
    intro isExact name isEnded
    rcases List.mem_filter.mp isEnded with ⟨member, different⟩
    change ((ident, scope.len) :: scope.vars).lookup name ≠ ((ident, scope.len) :: env.vars).lookup name
    rw [List.lookup_cons, List.lookup_cons, beq_false_of_ne (of_decide_eq_true different)]
    exact tracks.ended isExact name member

theorem atArgs (tracks : Tracks exact scope env names) (base : Nat) :
    Tracks exact { scope with jumpArgsBase := base } env names :=
  ⟨tracks.bound, tracks.types, tracks.holds, tracks.below, tracks.ended⟩

theorem atWords (tracks : Tracks exact scope env names) (base : Nat) :
    Tracks exact scope { env with base := base } names :=
  ⟨tracks.bound, tracks.types, tracks.holds, tracks.below, tracks.ended⟩

/-- The names that are bound since are those that the table has more. -/
theorem since (tracks : Tracks exact scope env names) {newer : List String}
    (isAfter : after.toBranchState = scope.insertAll newer)
    (bound : after.vars.map Prod.fst = behind.bound) : names.since behind = newer.reverse := by
  have parts : behind.bound = newer.reverse ++ names.bound := by
    rw [← bound, isAfter, vars_insertAll, List.map_append, tracks.bound, List.map_reverse,
      List.zipIdx_map_fst]
  rw [Names.since, parts, List.length_append, Nat.add_sub_cancel]
  exact List.take_left'  rfl

/-- Where the table has more names, the bindings around enclose the place as before. -/
theorem outside (tracks : Tracks exact scope env names) {newer : List String}
    (isAfter : after.toBranchState = scope.insertAll newer)
    (bound : after.vars.map Prod.fst = behind.bound) (types : after.lakeTypes = behind.types)
    (ended : ∀ name, name ∈ behind.ended ↔ name ∈ newer ∨ name ∈ names.ended) :
    Tracks exact after env behind := by
  have found := get_insertAll_place scope.toBranchState newer
  rw [← isAfter] at found
  constructor
  · exact bound
  · exact types
  · intro name holds
    rw [ended, not_or] at holds
    rw [isAfter, BranchState.get_insertAll holds.1]
    exact tracks.holds name holds.2
  · intro isExact name slot isSlot
    exact (tracks.below isExact name slot isSlot).trans_le (Grows.len_le ⟨newer, isAfter⟩)
  · intro isExact name isEnded
    rw [found name]
    -- A newer binding has a slot behind all that enclose the place.
    have apart : ∀ index, some (scope.len + index) ≠ env.get name := by
      intro index same
      have below := tracks.below isExact name _ same.symm
      omega
    rcases (ended name).mp isEnded with isNewer | already
    · rcases place_isSome isNewer with ⟨index, isPlace⟩
      rw [isPlace]
      exact apart index
    · cases isPlace : Names.place newer name with
      | some index => exact apart index
      | none => exact tracks.ended isExact name already

/-- Behind a body its bindings have ended. -/
theorem leave (tracks : Tracks exact scope env names) (inner : Tracks exact after other behind)
    (grows : Grows scope.toBranchState after.toBranchState) :
    Tracks exact after env (names.leave behind) := by
  rcases grows with ⟨newer, isAfter⟩
  have bound : after.vars.map Prod.fst = (names.leave behind).bound := inner.bound
  have types : after.lakeTypes = (names.leave behind).types := inner.types
  apply tracks.outside isAfter bound types
  intro name
  rw [Names.leave, tracks.since isAfter inner.bound, List.mem_append, List.mem_reverse]

theorem get_bindHandler (env : Env) (patterns : List Pattern) (name : String) :
    (env.bindHandler patterns).get name =
      ((Names.place (Handler.binders ⟨patterns, []⟩) name).map (env.base + ·)).or (env.get name) := by
  rw [Env.get, Env.bindHandler, List.lookup_append, lookup_zipIdx]
  rfl

/-- In a handler's body. The bindings of the `wait` so far have the slots from its own first one
on, as the words of the message do. -/
theorem enter {start : Scope} {before : Names} {patterns : List Pattern}
    (outer : Tracks exact start env before) (tracks : Tracks exact scope env names)
    (grows : Grows start.toBranchState scope.toBranchState) (base : env.base = start.len)
    (words : exact → start.len + (Handler.binders ⟨patterns, []⟩).length ≤ scope.len) :
    Tracks exact scope (env.bindHandler patterns) (names.enter before patterns) := by
  rcases grows with ⟨newer, isAfter⟩
  have since := outer.since isAfter tracks.bound
  have found := get_insertAll_place start.toBranchState newer
  rw [← isAfter] at found
  have own := get_bindHandler env patterns
  rw [base] at own
  constructor
  · exact tracks.bound
  · exact tracks.types
  · intro name holds
    rw [Names.enter] at holds
    dsimp only at holds
    rw [List.mem_append, not_or, List.mem_filter, List.mem_filter, since, List.reverse_reverse]
      at holds
    rw [own name]
    by_cases isOwn : name ∈ Handler.binders ⟨patterns, []⟩
    · have same : Names.place (Handler.binders ⟨patterns, []⟩) name = Names.place newer name := by
        by_contra different
        exact holds.1 ⟨isOwn, decide_eq_true different⟩
      rcases place_isSome isOwn with ⟨index, isPlace⟩
      rw [found name, ← same, isPlace]
      rfl
    · have isOuter : name ∉ names.ended := fun isEnded =>
        holds.2 ⟨isEnded, decide_eq_true isOwn⟩
      cases isPlace : Names.place (Handler.binders ⟨patterns, []⟩) name with
      | some index => exact absurd (place_lt isPlace).1 isOwn
      | none => exact tracks.holds name isOuter
  · intro isExact name slot isSlot
    rw [own name] at isSlot
    cases isPlace : Names.place (Handler.binders ⟨patterns, []⟩) name with
    | some index =>
        rw [isPlace] at isSlot
        have inside := (place_lt isPlace).2
        have fits := words isExact
        have same : start.len + index = slot := Option.some.inj isSlot
        omega
    | none =>
        rw [isPlace] at isSlot
        exact tracks.below isExact name slot isSlot
  · intro isExact name isEnded
    rw [Names.enter] at isEnded
    dsimp only at isEnded
    rw [List.mem_append, List.mem_filter, List.mem_filter, since, List.reverse_reverse,
      decide_eq_true_iff, decide_eq_true_iff] at isEnded
    rw [own name]
    rcases isEnded with ⟨isOwn, different⟩ | ⟨isOuter, notOwn⟩
    · rcases place_isSome isOwn with ⟨index, isPlace⟩
      rw [isPlace] at different
      rw [found name, isPlace]
      cases isNewer : Names.place newer name with
      | some other =>
          intro same
          have slots : start.len + other = start.len + index := Option.some.inj same
          exact different (by rw [isNewer, Nat.add_left_cancel slots])
      | none =>
          intro same
          have below : start.len + index < start.len := BranchState.slot_lt_len same
          omega
    · cases isPlace : Names.place (Handler.binders ⟨patterns, []⟩) name with
      | some index => exact absurd (place_lt isPlace).1 notOwn
      | none => exact tracks.ended isExact name isOuter

/-- The words of a `wait` are named for its handlers. -/
theorem register (tracks : Tracks exact scope env names)
    (handlers : List (List Pattern × List Expr)) :
    Tracks exact (registerHandlers scope (collected handlers)) env (names.register handlers) := by
  have registered : (registerHandlers scope (collected handlers)).toBranchState =
      scope.insertAll (registeredBinders (collected handlers)) := collectMeta_state rfl
  apply tracks.outside registered
  · rw [registered, vars_insertAll, List.map_append, List.map_reverse, List.zipIdx_map_fst,
      tracks.bound, Names.register, registeredBinders]
    cases (collected handlers).find? fun handler => handler.guard.isNone <;> rfl
  · rw [registerHandlers, Names.register, tracks.types]
    cases (collected handlers).find? fun handler => handler.guard.isNone <;> rfl
  · intro name
    rw [Names.register, registeredBinders]
    cases (collected handlers).find? fun handler => handler.guard.isNone with
    | none => exact List.mem_append
    | some handler => exact List.mem_append

end Tracks

/-! ## The traversal and the compiler's scopes -/

/-- A traversal that says of a task what is so of the compiler's scopes. -/
structure Walked (exact : Prop) (before : BranchState) (env : Env) (frame : Frame) (lexical : Bool)
    (walk : Walk) : Prop where
  tracks : Tracks exact frame.scope env walk.names
  grows : Grows before frame.scope.toBranchState
  ends : walk.ends = frame.ends
  sound : walk.clean = true → lexical = true
  complete : exact → lexical = true → walk.clean = true

namespace Walked

variable {exact : Prop} {scope : Scope} {other : BranchState} {env after behind : Env} {first rest : Frame}
  {lexical others : Bool} {walk next : Walk} {names : Names}

/-- A statement that binds nothing. -/
theorem refs (tracks : Tracks exact scope env names) (reads : List (List String)) :
    Walked exact scope.toBranchState env (.start scope) (reads.all fun refs => env.sees scope.toBranchState refs)
      { Walk.start names with clean := reads.all fun refs => names.hold refs } where
  tracks := tracks
  grows := .refl _
  ends := rfl
  sound := by
    intro hold
    rw [List.all_eq_true] at hold ⊢
    exact fun refs member => tracks.sees (hold refs member)
  complete := by
    intro isExact sees
    rw [List.all_eq_true] at sees
    change (reads.all fun refs => names.hold refs) = true
    rw [List.all_eq_true]
    exact fun refs member => tracks.hold isExact (sees refs member)

theorem ref (tracks : Tracks exact scope env names) {reads : List String} :
    Walked exact scope.toBranchState env (.start scope) (env.sees scope.toBranchState reads)
      { Walk.start names with clean := names.hold reads } where
  tracks := tracks
  grows := .refl _
  ends := rfl
  sound := tracks.sees
  complete := fun isExact => tracks.hold isExact

theorem andThen {peak : Nat} {ends named : Bool} (walked : Walked exact scope.toBranchState after first lexical walk)
    (later : Walked exact other behind rest others next)
    (same : other = first.scope.toBranchState) :
    Walked exact scope.toBranchState behind ⟨rest.scope, peak, ends⟩ (lexical && others)
      ⟨next.names, ends, walk.clean && next.clean, named⟩ where
  tracks := later.tracks
  grows := by
    have grows := later.grows
    rw [same] at grows
    exact walked.grows.trans grows
  ends := rfl
  sound := by
    intro clean
    rw [Bool.and_eq_true] at clean ⊢
    exact ⟨walked.sound clean.1, later.sound clean.2⟩
  complete := by
    intro isExact isLexical
    rw [Bool.and_eq_true] at isLexical
    exact (Bool.and_eq_true _ _).mpr
      ⟨walked.complete isExact isLexical.1, later.complete isExact isLexical.2⟩

end Walked

variable {exact : Prop}

theorem and_left {left right : Bool} (both : exact → (left && right) = true) (isExact : exact) :
    left = true := ((Bool.and_eq_true _ _).mp (both isExact)).1

theorem and_right {left right : Bool} (both : exact → (left && right) = true) (isExact : exact) :
    right = true := ((Bool.and_eq_true _ _).mp (both isExact)).2

variable (ctx exact) in
def WalkedExpr (stmt : Expr) : Prop :=
  ∀ scope env names, Tracks exact scope env names → (exact → (walkExpr ctx names stmt).named = true) →
    Walked exact scope.toBranchState (envExpr ctx scope env stmt) (frameExpr ctx scope stmt)
      (lexicalExpr ctx scope env stmt) (walkExpr ctx names stmt)

variable (ctx exact) in
def WalkedArgs (args : List Expr) : Prop :=
  ∀ base count scope env names, Tracks exact scope env names →
    (exact → (walkArgs ctx names args).named = true) →
    Walked exact scope.toBranchState (envArgs ctx base count scope env args) (frameArgs ctx base count scope args)
      (lexicalArgs ctx base count scope env args) (walkArgs ctx names args)

variable (ctx exact) in
def WalkedSeq (body : List Expr) : Prop :=
  ∀ scope env names, Tracks exact scope env names → (exact → (walkSeq ctx names body).named = true) →
    ∃ behind, Walked exact scope.toBranchState behind (frameSeq ctx scope body) (lexicalSeq ctx scope env body)
      (walkSeq ctx names body)

variable (ctx exact) in
def WalkedArms (branches : List (Expr × List Expr)) : Prop :=
  ∀ scope env names, Tracks exact scope env names →
    (exact → (walkArms ctx names branches).named = true) →
    Walked exact scope.toBranchState env (frameArms ctx scope branches) (lexicalArms ctx scope env branches)
      (walkArms ctx names branches)

variable (ctx exact) in
def WalkedHandlers (handlers : List (List Pattern × List Expr)) : Prop :=
  ∀ (start scope : Scope) (env : Env) (before names : Names), Tracks exact start env before →
    Tracks exact scope env names → Grows start.toBranchState scope.toBranchState →
    env.base = start.len →
    (exact → ∀ handler ∈ handlers, start.len + patSlots handler.1 ≤ scope.len) →
    (exact → (walkHandlers ctx before names handlers).named = true) →
    Walked exact scope.toBranchState env (frameHandlers ctx scope handlers) (lexicalHandlers ctx scope env handlers)
      (walkHandlers ctx before names handlers)

theorem walked_letVar {ident : String} {ty : Ty} {default : Expr}
    (inner : WalkedExpr ctx exact default) :
    WalkedExpr ctx exact (.letVar ident ty (some default)) := by
  intro scope env names tracks named
  rw [walkExpr] at named ⊢
  rw [envExpr, frameExpr, lexicalExpr]
  have isNamed : exact → (walkExpr ctx names default).named = true := by
    intro isExact
    have both := named isExact
    split at both <;> exact both
  have walked := inner scope env names tracks isNamed
  rw [walked.ends]
  split
  · exact walked
  · exact {
      tracks := walked.tracks.bind ident ty
      grows := walked.grows.insert ident
      ends := Bool.eq_false_of_not_eq_true (by assumption)
      sound := walked.sound
      complete := walked.complete }

theorem isSome_get {scope : Scope} {env : Env} {names : Names}
    (tracks : Tracks exact scope env names) (name : String) :
    (scope.get name).isSome = true ↔ name ∈ names.bound := by
  rw [← tracks.bound, BranchState.get]
  constructor
  · intro found
    rcases Option.isSome_iff_exists.mp found with ⟨slot, isSlot⟩
    rcases List.lookup_eq_some_iff.mp isSlot with ⟨front, back, isList, -⟩
    rw [isList]
    simp
  · intro member
    rcases List.mem_map.mp member with ⟨entry, inVars, rfl⟩
    by_contra missing
    rw [Option.not_isSome_iff_eq_none, List.lookup_eq_none_iff] at missing
    have different := missing entry inVars
    simp at different

theorem isPid_eq (ctx : CompilerCtx) {scope : Scope} {env : Env} {names : Names} (tracks : Tracks exact scope env names)
    (callee : String) (ty : Ty) :
    (!ctx.declaredRt callee && names.calleeType callee ty = "pid" && callee ∈ names.bound) =
      isSendTo ctx scope callee ty := by
  have isBound : decide (callee ∈ names.bound) = (scope.get callee).isSome := by
    rw [Bool.eq_iff_iff, decide_eq_true_iff]
    exact (isSome_get tracks callee).symm
  rw [isSendTo, Names.calleeType, ← tracks.types, isBound]
  rfl

theorem isSelfCall_eq (scope : Scope) (callee : String) (ty : Ty) :
    isSelfCall ctx scope callee ty =
      (callee = "self" && !ctx.declaredRt callee && !isSendTo ctx scope callee ty) := by
  rw [isSelfCall, isSendTo]
  cases ctx.declaredRt callee <;> simp

theorem walked_jump {ident : Expr} {args : List Expr} (inner : WalkedArgs ctx exact args) :
    WalkedExpr ctx exact (.jump ident args) := by
  intro scope env names tracks named
  by_cases isVar : ∃ callee ty, ident = .var callee ty
  · rcases isVar with ⟨callee, ty, rfl⟩
    by_cases isPureCall : isPure (.jump (.var callee ty) args) = true
    · rw [envExpr_pure _ isPureCall, frameExpr_pure _ isPureCall, lexicalExpr, walkExpr,
        if_pos isPureCall, if_pos isPureCall]
      exact .ref tracks
    · rw [walkExpr, if_neg isPureCall] at named ⊢
      rw [envExpr, frameExpr, lexicalExpr, if_neg isPureCall]
      dsimp only at named ⊢
      by_cases fused : callee = "self" ∧ allPure args = true
      · rw [if_pos fused] at named ⊢
        rw [if_pos fused, if_pos fused]
        have staged := inner scope.jumpArgsBase args.length scope env names tracks named
        rw [envArgs_pure args fused.2, frameArgs_pure args fused.2] at staged
        have isSelf : (decide (callee = "self") && allPure args) = true := by simpa using fused
        rw [isSelf, Bool.true_or, Bool.true_or, Bool.and_true]
        exact { staged with ends := rfl }
      · rw [if_neg fused] at named ⊢
        rw [if_neg fused, if_neg fused]
        have staged := inner scope.jumpArgsBase args.length scope env names tracks named
        have isPid := isPid_eq ctx staged.tracks callee ty
        have noSelf : (decide (callee = "self") && allPure args) = false := by simpa using fused
        rw [isPid, noSelf, Bool.false_or]
        exact {
          tracks := staged.tracks
          grows := staged.grows
          ends := (isSelfCall_eq _ _ _).symm
          sound := by
            intro clean
            dsimp only at clean
            rw [Bool.and_eq_true, Bool.or_eq_true] at clean ⊢
            exact ⟨staged.sound clean.1, clean.2.imp_right staged.tracks.sees⟩
          complete := by
            intro isExact lexical
            dsimp only
            rw [Bool.and_eq_true, Bool.or_eq_true] at lexical ⊢
            exact ⟨staged.complete isExact lexical.1,
              lexical.2.imp_right (staged.tracks.hold isExact)⟩ }
  · have other : ∀ callee ty, ident ≠ .var callee ty :=
      fun callee ty same => isVar ⟨callee, ty, same⟩
    rw [walkExpr, envExpr, frameExpr, lexicalExpr] <;> first | exact Walked.ref tracks | simp [other]

theorem walked_wait {handlers : List (List Pattern × List Expr)} {filter : List Expr}
    (inner : WalkedHandlers ctx exact handlers) : WalkedExpr ctx exact (.wait handlers filter) := by
  intro scope env names tracks named
  have sameEnv : envExpr ctx scope env (.wait handlers filter) = env := by
    rw [envExpr] <;> simp
  rw [walkExpr] at named ⊢
  rw [sameEnv, frameExpr, lexicalExpr]
  dsimp only at named ⊢
  have registered := tracks.register handlers
  have grows : Grows scope.toBranchState (registerHandlers scope (collected handlers)).toBranchState :=
    ⟨_, collectMeta_state rfl⟩
  have words : exact → ∀ handler ∈ handlers,
      scope.len + patSlots handler.1 ≤ (registerHandlers scope (collected handlers)).len := by
    intro isExact handler member
    rw [registered_len]
    have taken := List.all_eq_true.mp (and_right named isExact) handler member
    exact Nat.add_le_add_left (of_decide_eq_true taken) _
  have bodies := inner scope (registerHandlers scope (collected handlers))
    { env with base := scope.len } names _ (tracks.atWords _) (registered.atWords _) grows rfl words
    (and_left named)
  have behind := tracks.leave bodies.tracks (grows.trans bodies.grows)
  exact {
    tracks := behind
    grows := grows.trans bodies.grows
    ends := rfl
    sound := by
      intro clean
      rw [Bool.and_eq_true, List.all_eq_true] at clean ⊢
      exact ⟨bodies.sound clean.1, fun pid member => behind.sees (clean.2 pid member)⟩
    complete := by
      intro isExact lexical
      dsimp only
      rw [Bool.and_eq_true, List.all_eq_true] at lexical ⊢
      exact ⟨bodies.complete isExact lexical.1,
        fun pid member => behind.hold isExact (lexical.2 pid member)⟩ }

theorem walked_seq_cons {stmt : Expr} {body : List Expr} (inner : WalkedExpr ctx exact stmt)
    (rest : WalkedSeq ctx exact body) : WalkedSeq ctx exact (stmt :: body) := by
  intro scope env names tracks named
  rw [walkSeq] at named ⊢
  rw [frameSeq, lexicalSeq]
  dsimp only at named ⊢
  have isNamed : exact → (walkExpr ctx names stmt).named = true := by
    intro isExact
    have both := named isExact
    split at both
    · exact both
    · exact ((Bool.and_eq_true _ _).mp both).1
  have first := inner scope env names tracks isNamed
  rw [first.ends] at named ⊢
  cases ends : (frameExpr ctx scope stmt).ends with
  | true =>
      rw [if_pos rfl, if_pos rfl, Bool.true_or, Bool.and_true]
      exact ⟨_, first⟩
  | false =>
      rw [ends, if_neg Bool.false_ne_true] at named
      rw [if_neg Bool.false_ne_true, if_neg Bool.false_ne_true, Bool.false_or]
      rcases rest _ _ _ first.tracks (and_right named) with ⟨behind, later⟩
      have both : Walked exact scope.toBranchState behind
          ⟨_, max (frameExpr ctx scope stmt).peak
            (frameSeq ctx (frameExpr ctx scope stmt).scope body).peak, false⟩ _
          ⟨_, false, _, (walkExpr ctx names stmt).named &&
            (walkSeq ctx (walkExpr ctx names stmt).names body).named⟩ := first.andThen later rfl
      exact ⟨behind, both.tracks, both.grows, later.ends, both.sound, both.complete⟩

mutual
theorem walked_expr : (stmt : Expr) → WalkedExpr ctx exact stmt
  | .letVar ident ty (some default) => walked_letVar (walked_expr default)
  | .letVar ident ty none => by
      intro scope env names tracks named
      rw [walkExpr, envExpr, frameExpr, lexicalExpr]
      exact {
        tracks := tracks.bind ident ty
        grows := (Grows.refl _).insert ident
        ends := rfl
        sound := fun _ => rfl
        complete := fun _ _ => rfl }
  | .jump ident args => walked_jump (walked_args args)
  | .when cond branches => by
      intro scope env names tracks named
      rw [walkExpr] at named ⊢
      rw [envExpr, frameExpr, lexicalExpr]
      have disc := walked_expr cond scope env names tracks (and_left named)
      exact disc.andThen (walked_arms branches _ _ _ disc.tracks (and_right named)) rfl
  | .wait handlers filter => walked_wait (walked_handlers handlers)
  | .tuple elems => by
      intro scope env names tracks named
      have sameEnv : envExpr ctx scope env (.tuple elems) = env := by rw [envExpr] <;> simp
      have sameFrame : frameExpr ctx scope (.tuple elems) = .start scope := by
        rw [frameExpr] <;> simp
      have walked := Walked.refs tracks (elems.map foldReads)
      rw [List.all_map, List.all_map] at walked
      rw [walkExpr, sameEnv, sameFrame, lexicalExpr]
      exact walked
  | .index receiver index => by
      intro scope env names tracks named
      by_cases isPureIndex : isPure (.index receiver index) = true
      · rw [envExpr_pure _ isPureIndex, frameExpr_pure _ isPureIndex, lexicalExpr, walkExpr,
          if_pos isPureIndex, if_pos isPureIndex]
        exact .ref tracks
      · rw [walkExpr, if_neg isPureIndex] at named ⊢
        rw [envExpr, frameExpr, lexicalExpr, if_neg isPureIndex]
        dsimp only at named ⊢
        have buf := walked_expr receiver { scope with jumpArgsBase := scope.jumpArgsBase + 2 } env
          names (tracks.atArgs _) (and_left named)
        have offset := walked_expr index { (frameExpr ctx
          { scope with jumpArgsBase := scope.jumpArgsBase + 2 } receiver).scope with
            jumpArgsBase := scope.jumpArgsBase + 2 } _ _ (buf.tracks.atArgs _) (and_right named)
        have both : Walked exact scope.toBranchState _ ⟨_, 0, false⟩ _ ⟨_, false, _, true⟩ :=
          buf.andThen offset rfl
        exact ⟨both.tracks.atArgs _, both.grows, rfl, both.sound, both.complete⟩
  | .num text ty | .bool value | .unit | .atom name | .var name ty | .tupleIndex receiver index
  | .neg inner | .binary op left right | .other parts | .string text ty => by
      intro scope env names tracks named
      rw [walkExpr, envExpr, frameExpr, lexicalExpr] <;> first | exact Walked.ref tracks | simp

theorem walked_args : (args : List Expr) → WalkedArgs ctx exact args
  | [] => by
      intro base count scope env names tracks named
      rw [walkArgs, envArgs, frameArgs, lexicalArgs]
      exact .refs tracks []
  | arg :: args => by
      intro base count scope env names tracks named
      rw [walkArgs] at named ⊢
      rw [envArgs, frameArgs, lexicalArgs]
      have value := walked_expr arg { scope with jumpArgsBase := base + count } env names
        (tracks.atArgs _) (and_left named)
      exact value.andThen (walked_args args base count { (frameExpr ctx
        { scope with jumpArgsBase := base + count } arg).scope with jumpArgsBase := base } _ _
        (value.tracks.atArgs _) (and_right named)) rfl

theorem walked_seq : (body : List Expr) → WalkedSeq ctx exact body
  | [] => by
      intro scope env names tracks named
      rw [walkSeq, frameSeq, lexicalSeq]
      exact ⟨env, .refs tracks []⟩
  | stmt :: body => walked_seq_cons (walked_expr stmt) (walked_seq body)

theorem walked_arms : (branches : List (Expr × List Expr)) → WalkedArms ctx exact branches
  | [] => by
      intro scope env names tracks named
      rw [walkArms, frameArms, lexicalArms]
      exact .refs tracks []
  | (key, body) :: branches => by
      intro scope env names tracks named
      rw [walkArms] at named ⊢
      rw [frameArms, lexicalArms]
      rcases walked_seq body scope env names tracks (and_left named) with ⟨behind, arm⟩
      have outside := tracks.leave arm.tracks arm.grows
      exact arm.andThen (walked_arms branches _ env _ outside (and_right named)) rfl

theorem walked_handlers : (handlers : List (List Pattern × List Expr)) →
    WalkedHandlers ctx exact handlers
  | [] => by
      intro start scope env before names outer tracks grows base words named
      rw [walkHandlers, frameHandlers, lexicalHandlers]
      exact .refs tracks []
  | (patterns, body) :: handlers => by
      intro start scope env before names outer tracks grows base words named
      rw [walkHandlers] at named ⊢
      rw [frameHandlers, lexicalHandlers]
      have enters := outer.enter tracks grows base fun isExact =>
        (Nat.add_le_add_left (List.length_map _).le _).trans
          (words isExact (patterns, body) List.mem_cons_self)
      rcases walked_seq body scope _ _ enters (and_left named) with ⟨behind, first⟩
      have outside := tracks.leave first.tracks first.grows
      have more : exact → ∀ handler ∈ handlers, start.len + patSlots handler.1 ≤
          (frameSeq ctx scope body).scope.len := fun isExact handler member =>
        (words isExact handler (List.mem_cons_of_mem _ member)).trans first.grows.len_le
      have rest := walked_handlers handlers start _ env before _ outer outside
        (grows.trans first.grows) base more (and_right named)
      exact first.andThen rest rfl
end

end LakeNative.Memory
