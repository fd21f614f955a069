import ArmCompiler.Proofs.Scopes
import Mathlib.Data.List.Forall2
import Mathlib.Data.List.Induction

/-!
# Runs of a Symbol Table

What a symbol table answers after any operations, told from the operations alone. A scope is known
by the moment at which it was opened, and a binding belongs to the scope that was innermost when it
was made. Then a variable has the type of the first binding of its name in the innermost open scope
that has one, and a function has the signature that it was first made known with and the parameters
it was given since. Main statement: `answers_of_run`.

## Contents
- §1: operations and runs
- §2: parameters that clash
- §3: what the operations tell
- §4: one operation on the variables
- §5: scopes along a run
- §6: one operation on the functions
- §7: the answers of a run
-/

namespace ArmCompiler

namespace SymbolTable

/-! ## §1 Operations and runs -/

/-- What is done with a symbol table. -/
inductive Operation where
  | openScope
  | closeScope
  | addVariable (name : String) (ty : Ty)
  | addFunction (name : String) (returnType : Ty)
  | addParam (function : String) (param : Param)
  | enterFunction (name : String)
  | leaveFunction
  deriving DecidableEq

namespace Operation

/-- The operations on variables alone. -/
def onVariables : Operation → Bool
  | .openScope | .closeScope | .addVariable .. => true
  | .addFunction .. | .addParam .. | .enterFunction _ | .leaveFunction => false

/-- The operations on functions alone. -/
def onFunctions : Operation → Bool
  | .addFunction .. | .addParam .. | .leaveFunction => true
  | .openScope | .closeScope | .addVariable .. | .enterFunction _ => false

/-- The operations that keep the scopes that are open. -/
def keepsScopes : Operation → Bool
  | .openScope | .closeScope => false
  | .addVariable .. | .addFunction .. | .addParam .. | .enterFunction _ | .leaveFunction => true

end Operation

/-- Performs an operation. One that fails leaves the table as it is. -/
def perform (table : SymbolTable) : Operation → SymbolTable
  | .openScope => table.openScope
  | .closeScope => table.closeScope
  | .addVariable name ty => (table.addVariable? name ty).getD table
  | .addFunction name returnType => (table.addFunction? { name, returnType }).getD table
  | .addParam function param => (table.addParam? function param).getD table
  | .enterFunction name => (table.enterFunction name).2
  | .leaveFunction => table.leaveFunction

/-- The table after operations that start with an empty one. -/
def run (ops : List Operation) : SymbolTable := ops.foldl perform {}

@[simp] theorem run_append (ops : List Operation) (op : Operation) :
    run (ops ++ [op]) = (run ops).perform op := by
  simp [run]

/-! ## §2 Parameters that clash -/

/-- Whether a numbered parameter has a name that is bound already or that a parameter before it
has. -/
def taken (bound : String → Bool) (params : List Param) (entry : Param × Nat) : Bool :=
  bound entry.1.name || (params.take entry.2).any (·.name == entry.1.name)

/-- The parameters whose names are taken, or those whose names are not, in order. -/
def paramsTaken (want : Bool) (bound : String → Bool) (params : List Param) : List Param :=
  (params.zipIdx.filter fun entry => taken bound params entry == want).map (·.1)

/-- For the parameters after the first one, the name of the first one is bound too. -/
theorem paramsTaken_cons (want : Bool) (bound : String → Bool) (param : Param)
    (rest : List Param) :
    paramsTaken want bound (param :: rest) =
      (if bound param.name = want then [param] else []) ++
        paramsTaken want (fun name => bound name || name == param.name) rest := by
  -- The first parameter stands before all others, so for them its name counts as bound.
  have hrest : ∀ entry : Param × Nat, taken bound (param :: rest) (Prod.map id (· + 1) entry) =
      taken (fun name => bound name || name == param.name) rest entry := by
    intro entry
    simp only [taken, Prod.map, id_eq, List.take_succ_cons, List.any_cons, Bool.or_assoc,
      BEq.comm (a := param.name)]
  have hfirst : taken bound (param :: rest) (param, 0) = bound param.name := by
    simp [taken]
  simp only [paramsTaken, List.zipIdx_cons', List.filter_cons, hfirst, List.filter_map,
    Function.comp_def, hrest]
  by_cases hwant : bound param.name = want
  · simp [hwant, Function.comp_def]
  · simp [hwant, Function.comp_def]

/-- A parameter whose name is not taken has a name that is not bound. -/
theorem not_bound_of_mem {bound : String → Bool} {params : List Param} {param : Param}
    (h : param ∈ paramsTaken false bound params) : bound param.name = false := by
  obtain ⟨entry, hentry, rfl⟩ := List.mem_map.1 h
  have htaken := (List.mem_filter.1 hentry).2
  simp only [taken, beq_false, Bool.not_eq_true', Bool.or_eq_false_iff] at htaken
  exact htaken.1

/-- The variables that parameters become. -/
def variablesOf (params : List Param) : List (String × Ty) :=
  params.map fun param => (param.name, param.ty)

/-- Of the parameters whose names are not taken no two share a name. -/
theorem lookup_variablesOf {bound : String → Bool} {params : List Param} {param : Param}
    (h : param ∈ paramsTaken false bound params) :
    (variablesOf (paramsTaken false bound params)).lookup param.name = some param.ty := by
  induction params generalizing bound with
  | nil => simp [paramsTaken] at h
  | cons first rest ih =>
    rw [paramsTaken_cons] at h ⊢
    cases hfirst : bound first.name with
    | true =>
      simp only [hfirst, Bool.true_eq_false, if_false, List.nil_append] at h ⊢
      exact ih h
    | false =>
      simp only [hfirst, if_true, List.singleton_append, List.mem_cons] at h
      simp only [if_true, List.singleton_append, variablesOf, List.map_cons]
      rcases h with rfl | hmem
      · simp
      -- A later parameter that is not taken has a name other than the first one's.
      · have hne := not_bound_of_mem hmem
        simp only [Bool.or_eq_false_iff] at hne
        rw [List.lookup_cons, hne.2]
        exact ih hmem

/-- A name that no parameter has is not found among their variables. -/
theorem lookup_variablesOf_eq_none {params : List Param} {name : String}
    (h : ∀ param ∈ params, param.name ≠ name) : (variablesOf params).lookup name = none := by
  rw [List.lookup_eq_none_iff]
  intro entry hentry
  obtain ⟨param, hparam, rfl⟩ := List.mem_map.1 hentry
  simpa using (h param hparam).symm

/-- Whether the innermost scope binds a name. -/
def bindsHere (table : SymbolTable) (name : String) : Bool := (table.innermost.lookup name).isSome

theorem bindsHere_of_added {table added : SymbolTable} {name : String} {ty : Ty}
    (h : table.addVariable? name ty = some added) :
    added.bindsHere = fun other => table.bindsHere other || other == name := by
  funext other
  rw [bindsHere, (Gains.of_added h).innermost, Option.isSome_or, bindsHere, List.lookup_cons]
  cases other == name <;> rfl

theorem bindsHere_of_clash {table : SymbolTable} {name : String} {ty : Ty}
    (h : table.addVariable? name ty = none) :
    table.bindsHere = fun other => table.bindsHere other || other == name := by
  have hbound : table.bindsHere name = true := (table.addVariable?_eq_none_iff name ty).1 h
  funext other
  by_cases hsame : other = name
  · simp [hsame, hbound]
  · simp [hsame]

/-- Parameters are bound in order: those whose names are taken are given back, the others become
variables of the innermost scope. -/
theorem bindParams_spec (table : SymbolTable) (params : List Param) :
    (table.bindParams params).1 = (paramsTaken true table.bindsHere params).map (·.name) ∧
      table.Gains (variablesOf (paramsTaken false table.bindsHere params))
        (table.bindParams params).2 := by
  -- By induction on the parameters, for all tables. After each of them its name is bound, whether
  -- it clashed or not.
  induction params generalizing table with
  | nil => exact ⟨rfl, .nothing table⟩
  | cons param rest ih =>
    rw [paramsTaken_cons, paramsTaken_cons]
    unfold bindParams
    cases hadd : table.addVariable? param.name param.ty with
    | some added =>
      have hfree : table.bindsHere param.name = false := by
        rw [← Bool.not_eq_true, bindsHere, ← addVariable?_eq_none_iff table _ param.ty, hadd]
        exact Option.some_ne_none _
      obtain ⟨hclashes, hgains⟩ := ih added
      rw [bindsHere_of_added hadd] at hclashes hgains
      simp only [hfree, Bool.false_eq_true, if_false, if_true, List.nil_append]
      exact ⟨hclashes, (Gains.of_added hadd).trans hgains⟩
    | none =>
      have hbound : table.bindsHere param.name = true :=
        (table.addVariable?_eq_none_iff _ param.ty).1 hadd
      obtain ⟨hclashes, hgains⟩ := ih table
      rw [bindsHere_of_clash hadd] at hclashes hgains
      simp only [hbound, Bool.true_eq_false, if_false, if_true, List.nil_append,
        List.singleton_append, List.map_cons]
      exact ⟨by rw [hclashes], hgains⟩

/-! ## §3 What the operations tell -/

/-- The moments at which the scopes that are still open were opened, innermost first. The outermost
scope was there from the start and has none. -/
def openings (ops : List Operation) : List Nat :=
  ops.zipIdx.foldl (fun opened entry =>
    match entry.1 with
    | .openScope => entry.2 :: opened
    | .closeScope => opened.tail
    | _ => opened) []

/-- The scopes that are open, innermost first, by their moments. -/
def openScopes (ops : List Operation) : List (Option Nat) := (openings ops).map some ++ [none]

/-- The variables that an operation binds. -/
def binds (table : SymbolTable) : Operation → List (String × Ty)
  | .addVariable name ty => if (table.addVariable? name ty).isSome then [(name, ty)] else []
  | .enterFunction name => variablesOf (paramsTaken false table.bindsHere (table.params name))
  | .openScope | .closeScope | .addFunction .. | .addParam .. | .leaveFunction => []

/-- The variables that were bound while a scope was the innermost one, in the order in which that
happened. -/
def bindingsIn (ops : List Operation) (scope : Option Nat) : List (String × Ty) :=
  ops.zipIdx.flatMap fun entry =>
    if (openings (ops.take entry.2)).head? = scope then (run (ops.take entry.2)).binds entry.1
    else []

/-- Whether the innermost scope has a binding of the name. -/
def boundHere (ops : List Operation) (name : String) : Bool :=
  ((bindingsIn ops (openings ops).head?).lookup name).isSome

/-- The parameters that a function was given. -/
def paramsGiven (name : String) (ops : List Operation) : List Param :=
  ops.filterMap fun
    | .addParam function param => if function = name then some param else none
    | _ => none

/-- The signature that a function was first made known with, and the parameters it was given
since. -/
def signatureIn (name : String) : List Operation → Option Signature
  | [] => none
  | .addFunction other returnType :: later =>
    if other = name then some { name, returnType, params := paramsGiven name later }
    else signatureIn name later
  | _ :: later => signatureIn name later

theorem openings_append (ops : List Operation) (op : Operation) :
    openings (ops ++ [op]) =
      match op with
      | .openScope => ops.length :: openings ops
      | .closeScope => (openings ops).tail
      | _ => openings ops := by
  simp only [openings, List.zipIdx_append, List.foldl_append, List.zipIdx_singleton,
    List.foldl_cons, List.foldl_nil, Nat.zero_add]

theorem openings_of_keepsScopes {op : Operation} (h : op.keepsScopes) (ops : List Operation) :
    openings (ops ++ [op]) = openings ops := by
  rw [openings_append]
  cases op with
  | openScope | closeScope => cases h
  | _ => rfl

/-- One more operation adds its bindings to the scope that is innermost then. -/
theorem bindingsIn_append (ops : List Operation) (op : Operation) (scope : Option Nat) :
    bindingsIn (ops ++ [op]) scope =
      bindingsIn ops scope ++ if (openings ops).head? = scope then (run ops).binds op else [] := by
  -- What happened before a moment does not depend on what comes after it.
  have hearlier : ∀ entry ∈ ops.zipIdx, (ops ++ [op]).take entry.2 = ops.take entry.2 := by
    intro entry hentry
    have hlt := List.snd_lt_of_mem_zipIdx hentry
    exact List.take_append_of_le_length (by omega)
  rw [bindingsIn, List.zipIdx_append, List.flatMap_append, bindingsIn]
  congr 1
  · refine List.flatMap_congr fun entry hentry => ?_
    rw [hearlier entry hentry]
  · simp

/-! ## §4 One operation on the variables -/

/-- What an operation binds is added to the innermost scope, and the scopes around it stay, as long
as no scope is opened or closed. -/
theorem perform_of_keepsScopes {op : Operation} (h : op.keepsScopes) (table : SymbolTable) :
    (table.perform op).outer = table.outer ∧
      ∀ name, (table.perform op).innermost.lookup name =
        (table.innermost.lookup name).or ((table.binds op).lookup name) := by
  cases op with
  | openScope | closeScope => cases h
  | addVariable name ty =>
    simp only [perform, binds]
    cases hadd : table.addVariable? name ty with
    | some added => exact ⟨(Gains.of_added hadd).outer, (Gains.of_added hadd).innermost⟩
    | none => simp
  | addFunction name returnType =>
    simp only [perform, binds, addFunction?]
    split <;> simp
  | addParam function param =>
    simp only [perform, binds, addParam?]
    split <;> simp
  | enterFunction name =>
    have hgains := (bindParams_spec { table with current := some name } (table.params name)).2
    exact ⟨hgains.outer, hgains.innermost⟩
  | leaveFunction => simp [perform, binds, leaveFunction]

/-- A variable is one of the innermost scope, or one of the scopes around it. -/
theorem typeOf?_eq (table : SymbolTable) (name : String) :
    table.typeOf? name =
      (table.innermost.lookup name).or (table.outer.findSome? fun scope => scope.lookup name) := by
  rw [typeOf?, scopes, List.findSome?_cons]
  cases table.innermost.lookup name <;> rfl

/-- An operation that binds nothing and keeps the scopes leaves every variable as it was. -/
theorem typeOf?_perform_of_binds_nil {op : Operation} (h : op.keepsScopes) {table : SymbolTable}
    (hnone : table.binds op = []) (name : String) :
    (table.perform op).typeOf? name = table.typeOf? name := by
  obtain ⟨houter, hinner⟩ := perform_of_keepsScopes h table
  rw [typeOf?_eq, typeOf?_eq, houter, hinner, hnone, List.lookup_nil, Option.or_none]

theorem scopes_closeScope (table : SymbolTable) :
    table.closeScope.scopes =
      match table.outer with
      | [] => table.scopes
      | scope :: outer => scope :: outer := by
  unfold closeScope
  split <;> simp [scopes, *]

/-- Operations on functions leave every variable as it was. -/
theorem typeOf?_perform_of_onFunctions {op : Operation} (h : op.onFunctions) (table : SymbolTable)
    (name : String) : (table.perform op).typeOf? name = table.typeOf? name := by
  cases op with
  | addFunction | addParam | leaveFunction => exact typeOf?_perform_of_binds_nil rfl rfl name
  | openScope | closeScope | addVariable | enterFunction => cases h

/-! ## §5 Scopes along a run -/

/-- Moments of openings lie in the past, the innermost last. -/
theorem openings_falling (ops : List Operation) :
    (∀ moment ∈ openings ops, moment < ops.length) ∧ (openings ops).Pairwise (· > ·) := by
  -- From the end of the run: a scope that is opened now has the latest moment of all.
  induction ops using List.reverseRecOn with
  | nil => simp [openings]
  | append_singleton ops op ih =>
    obtain ⟨hpast, hfalling⟩ := ih
    have hlater : ∀ moment ∈ openings ops, moment < (ops ++ [op]).length := by
      intro moment hmem
      have hlt := hpast moment hmem
      rw [List.length_append]
      omega
    cases hop : op with
    | openScope =>
      subst hop
      rw [openings_append]
      refine ⟨fun moment hmem => ?_, List.pairwise_cons.2 ⟨hpast, hfalling⟩⟩
      rcases List.mem_cons.1 hmem with rfl | hmem
      · simp
      · exact hlater moment hmem
    | closeScope =>
      subst hop
      rw [openings_append]
      exact ⟨fun moment hmem => hlater moment (List.mem_of_mem_tail hmem), hfalling.tail⟩
    | _ =>
      subst hop
      rw [openings_of_keepsScopes rfl]
      exact ⟨hlater, hfalling⟩

theorem openScopes_eq_cons (ops : List Operation) :
    openScopes ops = (openings ops).head? :: (openScopes ops).tail := by
  cases hopenings : openings ops <;> simp [openScopes, hopenings]

/-- No two open scopes are the same. -/
theorem openScopes_nodup (ops : List Operation) : (openScopes ops).Nodup := by
  have hnodup : (openings ops).Nodup :=
    (openings_falling ops).2.imp fun hgt => Nat.ne_of_gt hgt
  rw [openScopes, List.nodup_append]
  refine ⟨List.nodup_map_iff (fun _ _ => Option.some.inj) |>.2 hnodup, List.nodup_singleton _, ?_⟩
  intro scope hscope other hother
  obtain ⟨moment, _, rfl⟩ := List.mem_map.1 hscope
  rw [List.mem_singleton.1 hother]
  exact Option.some_ne_none _

/-- Nothing was bound in a scope before it was opened. -/
theorem bindingsIn_future (ops : List Operation) : bindingsIn ops (some ops.length) = [] := by
  rw [bindingsIn, List.flatMap_eq_nil_iff]
  intro entry hentry
  have hlt := List.snd_lt_of_mem_zipIdx hentry
  -- The moment has not come yet, so no scope of an earlier moment bears it.
  have hother : (openings (ops.take entry.2)).head? ≠ some ops.length := by
    intro hhead
    have hpast := (openings_falling (ops.take entry.2)).1 _ (List.mem_of_head? hhead)
    rw [List.length_take] at hpast
    omega
  rw [if_neg hother]

/-- A scope of the table binds what was bound in it, each name with its first type. -/
def Remembers (ops : List Operation) (scope : Option Nat) (entries : Scope) : Prop :=
  ∀ name, entries.lookup name = (bindingsIn ops scope).lookup name

namespace Remembers

variable {ops : List Operation} {op : Operation} {scope : Option Nat} {entries : Scope}

theorem of_binds_nil (h : Remembers ops scope entries) (hnone : (run ops).binds op = []) :
    Remembers (ops ++ [op]) scope entries := by
  intro name
  rw [bindingsIn_append, hnone, ite_self, List.append_nil]
  exact h name

/-- The innermost scope remembers what an operation binds. -/
theorem innermost {table : SymbolTable}
    (h : Remembers ops (openings ops).head? (run ops).innermost)
    (hinner : ∀ name, table.innermost.lookup name =
      ((run ops).innermost.lookup name).or (((run ops).binds op).lookup name)) :
    Remembers (ops ++ [op]) (openings ops).head? table.innermost := by
  intro name
  rw [hinner, bindingsIn_append, if_pos rfl, List.lookup_append, h name]

/-- Scopes that are not the innermost one have nothing new to remember. -/
theorem others {scopes : List (Option Nat)} {outer : List Scope}
    (h : List.Forall₂ (Remembers ops) scopes outer) (hother : (openings ops).head? ∉ scopes) :
    List.Forall₂ (Remembers (ops ++ [op])) scopes outer := by
  induction h with
  | nil => exact .nil
  | cons hfirst _ ih =>
    refine .cons (fun name => ?_) (ih fun hmem => hother (List.mem_cons_of_mem _ hmem))
    have hne : (openings ops).head? ≠ _ := fun hsame => hother (hsame ▸ List.mem_cons_self)
    rw [bindingsIn_append, if_neg hne, List.append_nil]
    exact hfirst name

end Remembers

/-- At every moment of a run the scopes of the table are the open ones, with what was bound in
them. -/
theorem remembers_of_run (ops : List Operation) :
    List.Forall₂ (Remembers ops) (openScopes ops) (run ops).scopes := by
  induction ops using List.reverseRecOn with
  | nil => exact .cons (fun _ => rfl) .nil
  | append_singleton ops op ih =>
    by_cases hkeeps : op.keepsScopes
    · -- The innermost scope gains the bindings of the operation.
      obtain ⟨houter, hinner⟩ := perform_of_keepsScopes hkeeps (run ops)
      have hopen : openScopes (ops ++ [op]) = openScopes ops := by
        rw [openScopes, openings_of_keepsScopes hkeeps, openScopes]
      have hnodup := openScopes_nodup ops
      rw [hopen, run_append, scopes, houter]
      rw [openScopes_eq_cons] at ih hnodup ⊢
      obtain ⟨hfirst, hothers⟩ := List.forall₂_cons.1 ih
      exact .cons (hfirst.innermost hinner) (Remembers.others hothers (List.nodup_cons.1 hnodup).1)
    · cases op with
      | openScope =>
        -- The moment is new, so nothing can have been bound under it.
        have hopen : openScopes (ops ++ [.openScope]) = some ops.length :: openScopes ops := by
          rw [openScopes, openings_append, openScopes, List.map_cons, List.cons_append]
        rw [hopen, run_append, perform, scopes_openScope]
        refine .cons (fun name => ?_) (ih.imp fun _ _ h => h.of_binds_nil rfl)
        rw [bindingsIn_append, bindingsIn_future, binds, ite_self]
        rfl
      | closeScope =>
        replace ih : List.Forall₂ (Remembers (ops ++ [.closeScope])) _ _ :=
          ih.imp fun _ _ h => h.of_binds_nil rfl
        rw [run_append, perform, scopes_closeScope]
        cases hopened : openings ops with
        | nil =>
          -- Only the outermost scope is open, and it stays.
          have hopen : openScopes (ops ++ [.closeScope]) = openScopes ops := by
            simp [openScopes, openings_append, hopened]
          have houter : (run ops).outer = [] := by
            have hlength := ih.length_eq.symm
            simpa [openScopes, hopened, scopes] using hlength
          rwa [hopen, houter]
        | cons moment rest =>
          have hopen : openScopes ops = some moment :: openScopes (ops ++ [.closeScope]) := by
            simp [openScopes, openings_append, hopened]
          rw [hopen] at ih
          obtain ⟨_, hothers⟩ := List.forall₂_cons.1 ih
          cases houter : (run ops).outer with
          | nil => simpa [houter, openScopes] using hothers.length_eq
          | cons scope outer => rwa [houter] at hothers
      | _ => exact absurd rfl hkeeps

/-- There are as many scopes as were opened and not closed, and the outermost one. -/
theorem depth_of_run (ops : List Operation) : (run ops).depth = (openings ops).length + 1 := by
  have hlength := (remembers_of_run ops).length_eq
  rw [depth, ← hlength]
  simp [openScopes]

/-- Scopes that remember what was bound answer a lookup with it. -/
theorem findSome?_of_remembers {ops : List Operation} {opened : List (Option Nat)}
    {scopes : List Scope} (h : List.Forall₂ (Remembers ops) opened scopes) (name : String) :
    (scopes.findSome? fun scope => scope.lookup name) =
      opened.findSome? fun scope => (bindingsIn ops scope).lookup name := by
  induction h with
  | nil => rfl
  | cons hfirst _ ih => rw [List.findSome?_cons, List.findSome?_cons, hfirst name, ih]

/-- The innermost scope binds the names that were bound in it. -/
theorem bindsHere_of_run (ops : List Operation) : (run ops).bindsHere = boundHere ops := by
  have h := remembers_of_run ops
  rw [openScopes_eq_cons] at h
  funext name
  rw [bindsHere, (List.forall₂_cons.1 h).1 name, boundHere]

/-- The innermost scope was opened at the moment, and what lies around it are the scopes of that
moment. -/
structure OpenedAt (ops : List Operation) (moment : Nat) (rest : List Nat) : Prop where
  operation : ops[moment]? = some .openScope
  before : openings (ops.take moment) = rest
  outer : (run ops).outer = (run (ops.take moment)).scopes

namespace OpenedAt

variable {ops : List Operation} {moment closed : Nat} {rest rest' : List Nat}

theorem moment_lt (h : OpenedAt ops moment rest) : moment < ops.length :=
  (List.getElem?_eq_some_iff.1 h.operation).1

/-- The innermost scope stays the same as long as none is opened or closed. -/
theorem keep (h : OpenedAt ops moment rest) {op : Operation} (hkeeps : op.keepsScopes) :
    OpenedAt (ops ++ [op]) moment rest := by
  have htake : (ops ++ [op]).take moment = ops.take moment :=
    List.take_append_of_le_length (Nat.le_of_lt h.moment_lt)
  constructor
  · rw [List.getElem?_append_left h.moment_lt, h.operation]
  · rw [htake, h.before]
  · rw [htake, run_append, (perform_of_keepsScopes hkeeps _).1, h.outer]

/-- When a scope is closed, the one that was innermost before it was opened is innermost again. -/
theorem close (h : OpenedAt ops closed rest')
    (hbefore : OpenedAt (ops.take closed) moment rest) :
    OpenedAt (ops ++ [.closeScope]) moment rest := by
  have hlt : moment < closed := by
    have hlength := hbefore.moment_lt
    rw [List.length_take] at hlength
    omega
  have hpast : moment < ops.length := Nat.lt_trans hlt h.moment_lt
  have htake : (ops ++ [Operation.closeScope]).take moment = (ops.take closed).take moment := by
    rw [List.take_append_of_le_length (Nat.le_of_lt hpast), List.take_take,
      Nat.min_eq_left (Nat.le_of_lt hlt)]
  constructor
  · rw [List.getElem?_append_left hpast, ← List.getElem?_take_of_lt hlt, hbefore.operation]
  · rw [htake, hbefore.before]
  · rw [htake, ← hbefore.outer, run_append]
    simp only [perform, closeScope, h.outer, scopes]

end OpenedAt

/-- The innermost scope was opened at the moment that the openings say. -/
theorem openedAt_of_openings {ops : List Operation} {moment : Nat} {rest : List Nat}
    (h : openings ops = moment :: rest) : OpenedAt ops moment rest := by
  -- Closing a scope goes back to one that was opened long before, so the induction is on all
  -- shorter runs.
  induction hlength : ops.length using Nat.strongRecOn generalizing ops moment rest with
  | ind length ih =>
    rcases List.eq_nil_or_concat' ops with rfl | ⟨earlier, op, rfl⟩
    · simp [openings] at h
    have hshorter : earlier.length < length := by
      rw [← hlength, List.length_append]
      exact Nat.lt_succ_self _
    cases op with
    | openScope =>
      rw [openings_append] at h
      obtain ⟨rfl, rfl⟩ := List.cons.inj h
      constructor
      · simp
      · rw [List.take_left]
      · rw [List.take_left, run_append]
        rfl
    | closeScope =>
      rw [openings_append] at h
      cases hopened : openings earlier with
      | nil => simp [hopened] at h
      | cons closed rest' =>
        have hclosed := ih _ hshorter hopened rfl
        have hthen : openings (earlier.take closed) = moment :: rest := by
          simpa [hopened, hclosed.before] using h
        refine hclosed.close (ih _ ?_ hthen rfl)
        exact Nat.lt_of_le_of_lt (List.length_take_le' _ _) hshorter
    | addVariable | addFunction | addParam | enterFunction | leaveFunction =>
      rw [openings_of_keepsScopes rfl] at h
      exact (ih _ hshorter h rfl).keep rfl

/-- Closing the innermost scope brings back the scopes from before it was opened. -/
theorem scopes_closed {ops : List Operation} {moment : Nat} {rest : List Nat}
    (h : openings ops = moment :: rest) :
    (run (ops ++ [.closeScope])).scopes = (run (ops.take moment)).scopes := by
  rw [run_append, perform, scopes_closeScope, (openedAt_of_openings h).outer]
  rfl

/-- The outermost scope is not closed. -/
theorem outermost_stays {ops : List Operation} (h : openings ops = []) :
    run (ops ++ [.closeScope]) = run ops := by
  have hdepth := depth_of_run ops
  -- No moment is left, so the outermost scope is the only one.
  have houter : (run ops).outer = [] := by
    simpa [h, depth, scopes] using hdepth
  rw [run_append, perform, closeScope, houter]

/-- Entering a function binds the parameters whose names are not taken, and changes no other
variable. -/
theorem typeOf?_enterFunction (table : SymbolTable) (name other : String) :
    (table.perform (.enterFunction name)).typeOf? other =
      ((variablesOf (paramsTaken false table.bindsHere (table.params name))).lookup other).or
        (table.typeOf? other) := by
  have hkeeps : (Operation.enterFunction name).keepsScopes := rfl
  obtain ⟨houter, hinner⟩ := perform_of_keepsScopes hkeeps table
  rw [typeOf?_eq, typeOf?_eq, houter, hinner, binds, ← Option.or_assoc]
  generalize hfree : paramsTaken false table.bindsHere (table.params name) = free
  cases hlookup : (variablesOf free).lookup other with
  | none => simp
  | some ty =>
    -- What is bound now was not bound in the innermost scope.
    obtain ⟨param, hparam, hentry⟩ := List.mem_map.1 (Frame.mem_of_lookup hlookup)
    have hunbound := not_bound_of_mem (hfree ▸ hparam)
    rw [(Prod.mk.inj hentry).1, bindsHere, Option.isSome_eq_false_iff,
      Option.isNone_iff_eq_none] at hunbound
    simp [hunbound]

/-! ## §6 One operation on the functions -/

/-- A function that is known keeps its signature, and one that is not known becomes known without
parameters. -/
theorem function?_addFunction (table : SymbolTable) (name : String) (returnType : Ty)
    (other : String) :
    (table.perform (.addFunction name returnType)).function? other =
      (table.function? other).or (if other = name then some { name, returnType } else none) := by
  simp only [perform, addFunction?]
  cases hknown : table.function? name with
  | some signature =>
    by_cases hsame : other = name
    · simp [hsame, hknown]
    · simp [hsame]
  | none =>
    simp only [Option.getD_some, function?, List.find?_append, List.find?_singleton, beq_iff_eq,
      eq_comm (a := name)]

/-- A parameter is added to the function that it is for, if that is known, and to no other. -/
theorem function?_addParam (table : SymbolTable) (function : String) (param : Param)
    (other : String) :
    (table.perform (.addParam function param)).function? other =
      if other = function then (table.function? other).map (·.addParam param)
      else table.function? other := by
  simp only [perform, addParam?]
  cases hknown : table.function? function with
  | none =>
    by_cases hsame : other = function
    · simp [hsame, hknown]
    · simp [hsame]
  | some signature =>
    simp only [Option.getD_some, function?, List.find?_map]
    -- A parameter changes no name, so the same signature is found.
    have hname : ((fun signature : Signature => signature.name == other) ∘ fun signature =>
        if signature.name = function then signature.addParam param else signature) =
          fun signature => signature.name == other := by
      funext signature
      simp only [Function.comp_apply]
      split <;> rfl
    rw [hname]
    cases hfound : table.functions.find? fun signature => signature.name == other with
    | none => simp
    | some found =>
      have hother : found.name = other := by simpa using List.find?_some hfound
      simp only [Option.map_some, hother]
      split <;> rfl

/-- Two tables answer every question about functions alike. -/
structure FunctionsAlike (a b : SymbolTable) : Prop where
  function? : ∀ name, a.function? name = b.function? name
  isFunction : ∀ name, a.isFunction name = b.isFunction name
  returnType : ∀ name, a.returnType name = b.returnType name
  params : ∀ name, a.params name = b.params name
  paramType : ∀ name index, a.paramType name index = b.paramType name index
  current : a.current = b.current

theorem FunctionsAlike.of_eq {a b : SymbolTable} (hfunctions : a.functions = b.functions)
    (hcurrent : a.current = b.current) : FunctionsAlike a b := by
  have hfunction : a.function? = b.function? := by
    funext name
    rw [SymbolTable.function?, SymbolTable.function?, hfunctions]
  constructor
  case current => exact hcurrent
  all_goals simp [SymbolTable.isFunction, SymbolTable.returnType, SymbolTable.paramType,
    SymbolTable.params, hfunction]

/-- Operations on variables leave the functions as they were. -/
theorem functionsAlike_of_onVariables {op : Operation} (h : op.onVariables) (table : SymbolTable) :
    FunctionsAlike (table.perform op) table := by
  cases op with
  | openScope => exact .of_eq rfl rfl
  | closeScope =>
    simp only [perform, closeScope]
    split <;> exact .of_eq rfl rfl
  | addVariable name ty =>
    simp only [perform]
    cases hadd : table.addVariable? name ty with
    | some added => exact .of_eq (Gains.of_added hadd).functions (Gains.of_added hadd).current
    | none => exact .of_eq rfl rfl
  | addFunction | addParam | enterFunction | leaveFunction => cases h

/-- One more operation can only give a known function a parameter, or make it known. -/
theorem signatureIn_append (name : String) (ops : List Operation) (op : Operation) :
    signatureIn name (ops ++ [op]) =
      ((signatureIn name ops).map fun signature =>
        { signature with params := signature.params ++ paramsGiven name [op] }).or
          (signatureIn name [op]) := by
  -- The first operation that makes the function known decides. All later ones can only give it
  -- parameters.
  induction ops with
  | nil => rfl
  | cons first later ih =>
    cases first with
    | addFunction other returnType =>
      simp only [List.cons_append, signatureIn]
      by_cases hsame : other = name
      · simp [hsame, paramsGiven]
      · simpa [hsame] using ih
    | openScope | closeScope | addVariable | addParam | enterFunction | leaveFunction => exact ih

/-- A function has the signature that the operations tell. -/
theorem function?_of_run (ops : List Operation) (name : String) :
    (run ops).function? name = signatureIn name ops := by
  induction ops using List.reverseRecOn with
  | nil => rfl
  | append_singleton ops op ih =>
    rw [run_append, signatureIn_append, ← ih]
    cases op with
    | addFunction other returnType =>
      rw [function?_addFunction]
      by_cases hsame : other = name
      · simp [hsame, signatureIn, paramsGiven]
      · simp [hsame, Ne.symm hsame, signatureIn, paramsGiven]
    | addParam function param =>
      rw [function?_addParam]
      by_cases hsame : function = name
      · simp [hsame, signatureIn, paramsGiven, Signature.addParam]
      · simp [hsame, Ne.symm hsame, signatureIn, paramsGiven]
    | openScope | closeScope | addVariable =>
      rw [(functionsAlike_of_onVariables rfl _).function?]
      simp [signatureIn, paramsGiven]
    | enterFunction entered =>
      have hfunctions := (bindParams_spec { run ops with current := some entered }
        ((run ops).params entered)).2.functions
      simp only [function?, perform, enterFunction, hfunctions]
      simp [signatureIn, paramsGiven]
    | leaveFunction => simp [perform, leaveFunction, function?, signatureIn, paramsGiven]

/-! ## §7 The answers of a run -/

/-- What a symbol table answers after any operations.

There is always a scope, and one more for each that was opened and not closed. A variable has the
type of the first binding of its name in the innermost open scope that has one. A variable cannot be
added exactly if the innermost scope has a binding of its name, and then nothing changes. Closing
the outermost scope changes nothing; closing any other scope brings every variable back to what it
was before that scope was opened. Entering a function gives back the parameters whose names the
innermost scope or an earlier parameter has, in order, and binds each other one.

A function has the signature that it was first made known with and the parameters it was given
since: making it known again replaces nothing, and a parameter goes to the named function only.
Operations on variables change no answer about functions, and operations on functions change no
variable. -/
theorem answers_of_run (ops : List Operation) :
    1 ≤ (run ops).depth ∧ (run ops).depth = (openings ops).length + 1 ∧
    (∀ name, (run ops).typeOf? name =
      (openScopes ops).findSome? fun scope => (bindingsIn ops scope).lookup name) ∧
    (∀ name ty, ((run ops).addVariable? name ty = none ↔ boundHere ops name) ∧
      (boundHere ops name → run (ops ++ [.addVariable name ty]) = run ops)) ∧
    (openings ops = [] → run (ops ++ [.closeScope]) = run ops) ∧
    (∀ moment rest, openings ops = moment :: rest → ops[moment]? = some .openScope ∧
      ∀ name, (run (ops ++ [.closeScope])).typeOf? name =
        (run (ops.take moment)).typeOf? name) ∧
    (∀ function,
      ((run ops).enterFunction function).1 =
        (paramsTaken true (boundHere ops) ((run ops).params function)).map (·.name) ∧
      (∀ param ∈ paramsTaken false (boundHere ops) ((run ops).params function),
        (run (ops ++ [.enterFunction function])).typeOf? param.name = some param.ty) ∧
      ∀ name, (∀ param ∈ paramsTaken false (boundHere ops) ((run ops).params function),
        param.name ≠ name) →
          (run (ops ++ [.enterFunction function])).typeOf? name = (run ops).typeOf? name) ∧
    (∀ name, (run ops).function? name = signatureIn name ops) ∧
    (∀ function returnType name,
      (run (ops ++ [.addFunction function returnType])).function? name =
        ((run ops).function? name).or
          (if name = function then some { name := function, returnType } else none)) ∧
    (∀ function param name,
      (run (ops ++ [.addParam function param])).function? name =
        if name = function then ((run ops).function? name).map (·.addParam param)
        else (run ops).function? name) ∧
    (∀ op : Operation, op.onVariables → FunctionsAlike (run (ops ++ [op])) (run ops)) ∧
    (∀ op : Operation, op.onFunctions →
      ∀ name, (run (ops ++ [op])).typeOf? name = (run ops).typeOf? name) := by
  have hhere := bindsHere_of_run ops
  simp only [run_append]
  refine ⟨(run ops).depth_pos, depth_of_run ops, fun name => ?_, fun name ty => ?_, ?_, ?_,
    fun function => ?_, function?_of_run ops, function?_addFunction _, function?_addParam _, ?_, ?_⟩
  · exact findSome?_of_remembers (remembers_of_run ops) name
  · have hclash : (run ops).addVariable? name ty = none ↔ boundHere ops name := by
      rw [addVariable?_eq_none_iff, ← hhere]
      rfl
    refine ⟨hclash, fun hbound => ?_⟩
    rw [perform, hclash.2 hbound]
    rfl
  · intro hnone
    rw [← run_append]
    exact outermost_stays hnone
  · intro moment rest hopened
    refine ⟨(openedAt_of_openings hopened).operation, fun name => ?_⟩
    rw [← run_append, typeOf?, scopes_closed hopened]
    rfl
  · rw [← hhere]
    refine ⟨?_, fun param hparam => ?_, fun name hother => ?_⟩
    · exact (bindParams_spec { run ops with current := some function } _).1
    · rw [typeOf?_enterFunction, lookup_variablesOf hparam]
      rfl
    · rw [typeOf?_enterFunction, lookup_variablesOf_eq_none hother]
      rfl
  · exact fun op hop => functionsAlike_of_onVariables hop _
  · exact fun op hop => typeOf?_perform_of_onFunctions hop _

/-- A surplus closing, a name that is hidden and bound again, and a function whose parameters clash
with a variable and with each other. -/
def clashingOps : List Operation :=
  [.closeScope, .addFunction "f" .int, .addParam "f" ⟨"x", .int⟩, .addParam "f" ⟨"a", .bool⟩,
    .addParam "f" ⟨"a", .char⟩, .addVariable "x" .int, .openScope, .addVariable "x" .char,
    .addVariable "x" .bool]

/-- The inner variable counts until its scope is closed, and the first parameter of a name. -/
theorem answers_of_clashingOps :
    openings clashingOps = [6] ∧
      (run clashingOps).typeOf? "x" = some .char ∧
      (run (clashingOps ++ [.closeScope])).typeOf? "x" = some .int ∧
      ((run clashingOps).enterFunction "f").1 = ["x", "a"] ∧
      (run (clashingOps ++ [.enterFunction "f"])).typeOf? "a" = some .bool := by
  obtain ⟨_, _, hlookup, _, _, hclosed, hentered, _⟩ := answers_of_run clashingOps
  obtain ⟨hclashes, hbound, _⟩ := hentered "f"
  refine ⟨by decide, ?_, ?_, ?_, ?_⟩
  · rw [hlookup]
    decide
  · rw [(hclosed 6 [] (by decide)).2]
    decide
  · rw [hclashes]
    decide
  · exact hbound ⟨"a", .bool⟩ (by decide)

end SymbolTable

end ArmCompiler
