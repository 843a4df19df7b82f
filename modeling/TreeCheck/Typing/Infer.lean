import TreeCheck.Typing.Lookup

/-!
Type inference over expressions, statements and patterns. Every node is visited once and gets a
type; the type a context asks for is passed down as a hint.
-/

namespace TreeCheck.Typing

mutual

/-- Infers and records the type of an expression. The caller checks the type against its hint. -/
def infer (ctx : Context) : Expr → Option Ty → Check Ty
  | .int info value suffix, _ => recorded info.id do
    pendLiteral info.id info.span value
    match Ty.ofName? suffix with
    | some t => return t
    | none => fresh .integer
  | .float info _ suffix, _ => recorded info.id do
    match Ty.ofName? suffix with
    | some t => return t
    | none => fresh .float
  | .string info _, _ => recorded info.id (return .string)
  | .template info parts, _ => recorded info.id do
    inferParts ctx parts
    return .string
  | .bool info _, _ => recorded info.id (return .bool)
  | .ident info name, _ => recorded info.id (ctx.nameType info name)
  | .binary info op left right, hint => recorded info.id do
    let operator := s!"binary operator `{op.text}`"
    match op.group with
    | .arithmetic =>
      let t ← infer ctx left hint
      if ← ctx.unify right.span t (← infer ctx right (some t)) then
        ctx.require info.span operator t .numeric
        return t
      else return .invalid
    | .bitwise =>
      let t ← infer ctx left hint
      if ← ctx.unify right.span t (← infer ctx right (some t)) then
        ctx.require info.span operator t .integerOrBool
        return t
      else return .invalid
    | .shift =>
      let t ← infer ctx left hint
      let amount ← fresh .integer
      let _ ← ctx.unify right.span amount (← infer ctx right none)
      ctx.require info.span operator t .integer
      return t
    | .ordering =>
      let t ← infer ctx left none
      if ← ctx.unify right.span t (← infer ctx right (some t)) then
        ctx.require info.span operator t .orderable
      return .bool
    | .equality =>
      let t ← infer ctx left none
      let _ ← ctx.unify right.span t (← infer ctx right (some t))
      return .bool
    | .logical =>
      let _ ← ctx.unify left.span .bool (← infer ctx left (some .bool))
      let _ ← ctx.unify right.span .bool (← infer ctx right (some .bool))
      return .bool
  | .unary info op operand, hint => recorded info.id do
    let t ← infer ctx operand hint
    let operator := s!"unary operator `{op.text}`"
    match op with
    | .neg =>
      if let .int literal value _ := operand then negateLiteral literal.id info.span value
      ctx.require info.span operator t .signed
    | .not => ctx.require info.span operator t .integerOrBool
    | .bitNot => ctx.require info.span operator t .integer
    return t
  | .call info callee args, _ => recorded info.id do
    match ← ctx.namedFunction? callee with
    | some signature =>
      let (params, result) ← Context.enterCall info callee signature
      checkArgs ctx args (← ctx.arity info.span signature.name args.length params)
      return result
    | none =>
      match ← shallow (← infer ctx callee none) with
      | .function params result =>
        checkArgs ctx args (← ctx.arity info.span callee.text args.length params)
        return result
      | t =>
        if !t.isInvalid then
          ctx.report .typeMismatch callee.span
            s!"`{callee.text}` of type `{t.text}` is not a function"
        checkArgs ctx args none
        return .invalid
  | .methodCall info receiver name args, _ => recorded info.id do
    let outer ← infer ctx receiver none
    let (base, derefs) ← deref outer
    match ← ctx.method? info receiver name base with
    | some signature =>
      let (params, result) ← ctx.enterMethod info receiver name outer base derefs signature
      checkArgs ctx args (← ctx.arity info.span signature.name args.length params)
      return result
    | none =>
      checkArgs ctx args none
      return .invalid
  | .field info object name, _ => recorded info.id do
    let (base, derefs) ← deref (← infer ctx object none)
    if 0 < derefs then coerce object.id .autoDeref
    ctx.fieldType info object name base
  | .index info object index, _ => recorded info.id do
    let (base, derefs) ← deref (← infer ctx object none)
    if 0 < derefs then coerce object.id .autoDeref
    let found ← infer ctx index none
    let _ ← ctx.unify index.span (← fresh .integer) found
    ctx.elementType info object base
  | .ref info mutable operand, hint => recorded info.id do
    let inner := match ← shallow? hint with
      | some (.ref _ target) => some target
      | _ => none
    return .ref mutable (← infer ctx operand inner)
  | .deref info operand, _ => recorded info.id do
    ctx.targetType info (← infer ctx operand none)
  | .struct info name fields, hint => recorded info.id do
    match ← ctx.literalStruct? info name (fields.map FieldInit.name) hint with
    | some (struct, args) =>
      note fun a => { a with structs := a.structs.insert info.id struct }
      let declared := ctx.table.decls.fields struct args
      checkInits ctx struct declared [] fields
      ctx.requireFields info.span struct declared (fields.map FieldInit.name)
      return .struct struct args
    | none =>
      inferFields ctx fields
      return .invalid
  | .variant info enum variant args fields, hint => recorded info.id do
    match ← ctx.variant? info.span enum variant hint with
    | some found =>
      let typeArgs ← Context.enterVariant info found hint
      let slots := Decls.slots found.enum typeArgs found.variant
      if found.variant.isNamed then
        if !args.isEmpty then
          ctx.report .arityMismatch info.span s!"variant `{found.text}` has named fields"
        let declared := Context.slotFields found.variant slots
        checkInits ctx found.text declared [] fields
        ctx.requireFields info.span found.text declared (fields.map FieldInit.name)
      else
        if !fields.isEmpty then
          ctx.report .typeMismatch info.span s!"variant `{found.text}` has no named fields"
        inferFields ctx fields
        checkArgs ctx args (← ctx.arity info.span found.text args.length slots)
      return .enum found.enum.name typeArgs
    | none =>
      checkArgs ctx args none
      inferFields ctx fields
      return .invalid
  | .tuple info elements, hint => recorded info.id do
    let hints := match ← shallow? hint with
      | some (.tuple types) => if types.length == elements.length then types else []
      | _ => []
    return .product (← inferEach ctx elements hints)
  | .array info elements, hint => recorded info.id do
    let element ← match ← shallow? hint with
      | some (.array element) => pure element
      | _ => fresh .general
    inferItems ctx elements element
    return .array element
  | .cast info operand written, _ => recorded info.id do
    let target ← ctx.resolve written
    let _ ← infer ctx operand none
    modify fun s => { s with casts := s.casts ++ [⟨operand.id, info.span, target⟩] }
    return target
  | .assign info target value, _ => recorded info.id do
    if !target.isPlace then
      ctx.report .typeMismatch target.span "invalid left-hand side of assignment"
    let t ← infer ctx target none
    ctx.assign value t (← infer ctx value (some t))
    return .unit
  | .select info scrutinee arms, hint => recorded info.id do
    let t ← infer ctx scrutinee none
    if arms.isEmpty then return .unit
    let result ← fresh .general
    checkArms ctx arms t result (hint.getD result)
    return result
  | .branch info condition consequent none, hint => recorded info.id do
    let _ ← ctx.unify condition.span .bool (← infer ctx condition (some .bool))
    let t ← infer ctx consequent hint
    let _ ← ctx.unify consequent.span .unit t
    return .unit
  | .branch info condition consequent (some alternative), hint => recorded info.id do
    let _ ← ctx.unify condition.span .bool (← infer ctx condition (some .bool))
    let t ← infer ctx consequent hint
    let _ ← ctx.unify alternative.span t (← infer ctx alternative hint)
    return t
  | .block body, hint => recorded body.id (inferBlock ctx body hint)

/-- Arguments against parameter types of the same number; without them they are only inferred. -/
def checkArgs (ctx : Context) : List Expr → Option (List Ty) → Check Unit
  | [], _ => pure ()
  | a :: rest, some (want :: wants) => do
    let known ← shallow want
    let found ← infer ctx a (if known.isRef && a.isPlace then none else some want)
    ctx.pass a want known found
    checkArgs ctx rest (some wants)
  | a :: rest, _ => do
    let _ ← infer ctx a none
    checkArgs ctx rest none

/-- The types of elements, with hints as far as there are any. -/
def inferEach (ctx : Context) : List Expr → List Ty → Check (List Ty)
  | [], _ => return []
  | e :: rest, hints => do
    let t ← infer ctx e hints.head?
    return t :: (← inferEach ctx rest hints.tail)

def inferItems (ctx : Context) : List Expr → Ty → Check Unit
  | [], _ => pure ()
  | e :: rest, element => do
    let _ ← ctx.unify e.span element (← infer ctx e (some element))
    inferItems ctx rest element

def inferParts (ctx : Context) : List TemplatePart → Check Unit
  | [] => pure ()
  | .text _ :: rest => inferParts ctx rest
  | .value e :: rest => do
    let _ ← infer ctx e none
    inferParts ctx rest

/-- Initializers of fields that are not known. -/
def inferFields (ctx : Context) : List FieldInit → Check Unit
  | [] => pure ()
  | .mk _ _ value :: rest => do
    let _ ← infer ctx value none
    inferFields ctx rest

/-- Initializers against declared fields; `seen` are the names that came before. -/
def checkInits (ctx : Context) (owner : String) (declared : List Field) (seen : List String) :
    List FieldInit → Check Unit
  | [] => pure ()
  | .mk name _ value :: rest => do
    match fieldNamed? declared name with
    | none =>
      ctx.report .undefinedName value.span s!"`{owner}` has no field named `{name}`"
      let _ ← infer ctx value none
    | some t =>
      if seen.contains name then
        ctx.report .duplicateDefinition value.span s!"field `{name}` is initialized more than once"
      ctx.assign value t (← infer ctx value (some t))
    checkInits ctx owner declared (name :: seen) rest

def checkArms (ctx : Context) : List MatchArm → Ty → Ty → Ty → Check Unit
  | [], _, _, _ => pure ()
  | .mk _ pattern guard body :: rest, t, result, hint => do
    push
    checkPattern ctx pattern t
    checkCondition ctx guard
    let _ ← ctx.unify body.span result (← infer ctx body (some hint))
    let _ ← pop
    checkArms ctx rest t result hint

def checkCondition (ctx : Context) : Option Expr → Check Unit
  | none => pure ()
  | some condition => do
    let _ ← ctx.unify condition.span .bool (← infer ctx condition (some .bool))

def inferBlock (ctx : Context) : Block → Option Ty → Check Ty
  | .mk info stmts tail, hint => inScope do
    checkStmts ctx stmts
    match tail with
    | some value => infer ctx value hint
    | none =>
      if (Block.mk info stmts none).endsInReturn then
        let t ← fresh .general
        modify fun s => { s with diverging := s.diverging ++ [t] }
        return t
      else return .unit

def checkStmts (ctx : Context) : List Stmt → Check Unit
  | [] => pure ()
  | s :: rest => do
    checkStmt ctx s
    checkStmts ctx rest

def checkStmt (ctx : Context) : Stmt → Check Unit
  | .bind _ pattern type init => do
    let declared ← match type with
      | some written => some <$> ctx.resolve written
      | none => pure none
    let found ← inferInit ctx init declared
    let t ← match declared.or found with
      | some t => pure t
      | none => fresh .general
    checkPattern ctx pattern t
  | .expr _ value => do
    let _ ← infer ctx value none
  | .ret span none => do
    let _ ← ctx.unify span ctx.signature.result .unit
  | .ret _ (some value) => do
    ctx.assign value ctx.signature.result (← infer ctx value (some ctx.signature.result))
  | .loop _ condition body => do
    let _ ← ctx.unify condition.span .bool (← infer ctx condition (some .bool))
    let _ ← recorded body.id (inferBlock ctx body none)
  | .counted _ init condition update body => inScope do
    checkStmtOption ctx init
    checkCondition ctx condition
    let _ ← recorded body.id (inferBlock ctx body none)
    inferOption ctx update

def checkStmtOption (ctx : Context) : Option Stmt → Check Unit
  | none => pure ()
  | some s => checkStmt ctx s

def inferOption (ctx : Context) : Option Expr → Check Unit
  | none => pure ()
  | some e => do
    let _ ← infer ctx e none

/-- The type of an initial value, which is stored at the declared type if there is one. -/
def inferInit (ctx : Context) : Option Expr → Option Ty → Check (Option Ty)
  | none, _ => return none
  | some value, declared => do
    let found ← infer ctx value declared
    if let some t := declared then ctx.assign value t found
    return some found

/-- Checks a pattern against the type it matches, and declares what it binds. -/
def checkPattern (ctx : Context) : Pattern → Ty → Check Unit
  | .wildcard info, t => record info.id t
  | .binding b, t => do
    record b.info.id t
    declare b.name t
  | .literal info value, t => do
    record info.id t
    match value with
    | .int n =>
      let _ ← ctx.unify info.span t (← fresh .integer)
      pendLiteral info.id info.span n
    | .float _ =>
      let _ ← ctx.unify info.span t (← fresh .float)
    | .string _ =>
      let _ ← ctx.unify info.span t .string
    | .bool _ =>
      let _ ← ctx.unify info.span t .bool
  | .range info low high _, t => do
    record info.id t
    let _ ← ctx.unify info.span t (← fresh .integer)
    pendLiteral info.id info.span low
    pendLiteral info.id info.span high
  | .tuple info elements, t => do
    record info.id t
    checkPatterns ctx elements (← ctx.elementTypes info elements t)
  | .list info front _ rest, t => do
    record info.id t
    let element ← fresh .general
    let fits ← ctx.unify info.span t (.array element)
    let element := if fits then element else .invalid
    checkEach ctx front element
    if let some b := rest then
      record b.info.id (.array element)
      declare b.name (.array element)
  | .record info name fields rest, t => do
    record info.id t
    match ctx.table.decls.struct? name with
    | none =>
      ctx.report .undefinedName info.span s!"cannot find struct `{name}`"
      checkFieldPatterns ctx none [] fields
    | some d =>
      let args ← freshAll d.params
      let _ ← ctx.unify info.span t (.struct name args)
      note fun a => { a with structs := a.structs.insert info.id name }
      let declared := ctx.table.decls.fields name args
      checkFieldPatterns ctx (some (name, declared)) [] fields
      if !rest then
        ctx.requireFieldPatterns info.span name declared (fields.map FieldPattern.name)
  | .variant info enum variant args fields rest, t => do
    record info.id t
    match ← ctx.variant? info.span enum variant (some t) with
    | none =>
      checkEach ctx args .invalid
      checkFieldPatterns ctx none [] fields
    | some found =>
      let typeArgs ← freshAll found.enum.params
      let _ ← ctx.unify info.span t (.enum found.enum.name typeArgs)
      note fun a => { a with variants := a.variants.insert info.id found }
      let slots := Decls.slots found.enum typeArgs found.variant
      if found.variant.isNamed then
        if !args.isEmpty then
          ctx.report .arityMismatch info.span s!"variant `{found.text}` has named fields"
        checkEach ctx args .invalid
        let declared := Context.slotFields found.variant slots
        checkFieldPatterns ctx (some (found.text, declared)) [] fields
        if !rest then
          ctx.requireFieldPatterns info.span found.text declared (fields.map FieldPattern.name)
      else
        if !fields.isEmpty then
          ctx.report .typeMismatch info.span s!"variant `{found.text}` has no named fields"
        checkFieldPatterns ctx none [] fields
        if args.length != slots.length then
          ctx.report .arityMismatch info.span
            s!"variant `{found.text}` has {slots.length} field(s) but the pattern has {args.length}"
        checkPatterns ctx args (if args.length == slots.length then slots else [])
  | .alternatives info choices, t => do
    record info.id t
    checkChoices ctx choices t
  | .guarded info inner condition, t => do
    record info.id t
    checkPattern ctx inner t
    let _ ← ctx.unify condition.span .bool (← infer ctx condition (some .bool))

/-- Patterns against types; a pattern without a type is checked against the invalid type. -/
def checkPatterns (ctx : Context) : List Pattern → List Ty → Check Unit
  | [], _ => pure ()
  | p :: rest, types => do
    checkPattern ctx p (types.headD .invalid)
    checkPatterns ctx rest types.tail

/-- Patterns against one type. -/
def checkEach (ctx : Context) : List Pattern → Ty → Check Unit
  | [], _ => pure ()
  | p :: rest, t => do
    checkPattern ctx p t
    checkEach ctx rest t

/-- Named patterns against the fields of an owner. Without one they are checked against the invalid
type. -/
def checkFieldPatterns (ctx : Context) (owner : Option (String × List Field))
    (seen : List String) : List FieldPattern → Check Unit
  | [] => pure ()
  | .mk name p :: rest => do
    match owner with
    | none => checkPattern ctx p .invalid
    | some (ownerName, declared) =>
      match fieldNamed? declared name with
      | none =>
        ctx.report .undefinedName p.span s!"`{ownerName}` has no field named `{name}`"
        checkPattern ctx p .invalid
      | some t =>
        if seen.contains name then
          ctx.report .duplicateDefinition p.span s!"field `{name}` is bound more than once"
        checkPattern ctx p t
    checkFieldPatterns ctx owner (name :: seen) rest

/-- Alternatives: the names that the first one binds are declared, and the others have to bind the
same names at the same types. -/
def checkChoices (ctx : Context) : List Pattern → Ty → Check Unit
  | [], _ => pure ()
  | first :: rest, t => do
    checkPattern ctx first t
    checkOthers ctx (first.bindings.map Binding.name).eraseDups rest t

def checkOthers (ctx : Context) (first : List String) : List Pattern → Ty → Check Unit
  | [], _ => pure ()
  | p :: rest, t => do
    push
    checkPattern ctx p t
    ctx.compareBindings p.span first (← pop)
    checkOthers ctx first rest t

end

end TreeCheck.Typing
