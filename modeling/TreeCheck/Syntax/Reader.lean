import TreeCheck.Document.Reader
import TreeCheck.Syntax.Nodes
import TreeCheck.Syntax.ReadError
import TreeCheck.Syntax.TypeReader

/-!
Reading syntax trees from documents. A construct is a mapping whose keys say what it is, such as
`{call: f, args: [x]}`; scalars are literals and names, and a sequence is a block.
-/

namespace TreeCheck

/-! ### Blank characters and the trimming of text -/

namespace Text

/-- The characters with the Unicode property White_Space. -/
def isBlank (c : Char) : Bool :=
  let n := c.toNat
  (0x09 ≤ n && n ≤ 0x0d) || n == 0x20 || n == 0x85 || n == 0xa0 || n == 0x1680
    || (0x2000 ≤ n && n ≤ 0x200a) || n == 0x2028 || n == 0x2029 || n == 0x202f || n == 0x205f
    || n == 0x3000

/-- Drops the characters of a class from both ends. -/
def trimBoth (drop : Char → Bool) (text : List Char) : List Char :=
  ((text.dropWhile drop).reverse.dropWhile drop).reverse

def trim (text : String) : String := String.ofList (trimBoth isBlank text.toList)

def isBlankText (text : String) : Bool := text.toList.all isBlank

end Text

namespace Syntax

open Document (Node Entry Graph)

/-- The outcome of reading a part of a document. -/
abbrev Read (α : Type) : Type := Except ReadError α

/-- A document that is read as a program, and the name of its file. -/
structure Input where
  file : String
  document : Graph

/-- The node itself, or the node that an alias names. -/
def Input.target (input : Input) (node : Node) : Node := input.document.target node

def spanOf (input : Input) (node : Node) : Span :=
  .point input.file (node.start.line + 1) (node.start.column + 1)

def refuse {α : Type} (input : Input) (node : Node) (cause : Cause) : Read α :=
  .error (.at (spanOf input node) cause)

/-- A mapping by its trimmed keys, the values behind aliases. -/
structure Fields where
  node : Node
  entries : List (String × Node)

namespace Fields

def get? (fields : Fields) (key : String) : Option Node :=
  (fields.entries.find? fun entry => entry.1 == key).map Prod.snd

def has (fields : Fields) (key : String) : Bool := fields.entries.any fun entry => entry.1 == key

def keys (fields : Fields) : List String := fields.entries.map Prod.fst

def ofEntries (input : Input) : List (String × Node) → List Entry → Read (List (String × Node))
  | seen, [] => .ok seen
  | seen, .mk key value :: rest =>
    let name := Text.trim key.keyText
    if seen.any fun entry => entry.1 == name then refuse input key (.duplicateKey name)
    else ofEntries input (seen ++ [(name, input.target value)]) rest

def read (input : Input) : Option Node → Read Fields
  | none => .error (.missing input.file .mapping)
  | some node =>
    match input.target node with
    | .mapping start tag entries => do
      return ⟨.mapping start tag entries, ← ofEntries input [] entries⟩
    | other => refuse input other (.noMapping other.tag)

end Fields

/-- A node that is there and does not stand for nothing. -/
def present (input : Input) : Option Node → Option Node
  | some node => if (input.target node).isNull then none else some node
  | none => none

def readScalar (input : Input) : Option Node → Read String
  | none => .error (.missing input.file .value)
  | some node =>
    match input.target node with
    | .scalar _ _ text => .ok (Text.trim text)
    | other => refuse input other .noScalar

/-- An absent flag is off. -/
def readFlag (input : Input) (node : Option Node) : Read Bool :=
  match present input node with
  | none => .ok false
  | some node =>
    match node.toBool? with
    | some value => .ok value
    | none => refuse input node .noBoolean

def readNames (input : Input) (node : Option Node) : Read (List String) :=
  match present input node with
  | none => .ok []
  | some node =>
    match input.target node with
    | .sequence _ _ items => items.mapM fun item => readScalar input (some item)
    | other => refuse input other .noNameList

def readType (input : Input) (node : Option Node) : Read (Option WrittenType) :=
  match present input node with
  | none => .ok none
  | some node => do
    let text ← readScalar input (some node)
    match TypeExpr.ofText text with
    | .ok type => return some ⟨spanOf input node, type⟩
    | .error message => refuse input node (.badType message)

/-- Splits `Enum::Variant` at its last separator. -/
def splitPath (text : String) : String × String :=
  let rec go : List Char → List Char → Option (List Char × List Char)
    | ':' :: ':' :: outer, inner => some (outer, inner)
    | c :: outer, inner => go outer (c :: inner)
    | [], _ => none
  match go text.toList.reverse [] with
  | some (outer, inner) => (String.ofList outer.reverse, String.ofList inner)
  | none => ("", text)

private def containsPath : List Char → Bool
  | ':' :: ':' :: _ => true
  | _ :: rest => containsPath rest
  | [] => false

/-- A letter or underscore, then letters, digits and underscores. -/
def isIdentifier (text : String) : Bool :=
  match text.toList with
  | c :: rest => (c.isAlpha || c == '_') && rest.all fun d => d.isAlphanum || d == '_'
  | [] => false

private def splitDigits (text : List Char) : List Char × List Char :=
  let (sign, unsigned) := match text with
    | '-' :: rest => (['-'], rest)
    | chars => ([], chars)
  (sign ++ unsigned.takeWhile Char.isDigit, unsigned.dropWhile Char.isDigit)

/-- Whether a text written by `splitDigits` holds a digit. -/
private def hasDigits (digits : List Char) : Bool := digits.any Char.isDigit

def intSuffixes : List String := ["i8", "i16", "i32", "i64", "u8", "u16", "u32", "u64"]

/-- An integer literal with the name of its type, such as `5u8`. -/
def suffixedInt? (text : String) : Option (Int × String) := do
  let (digits, suffix) := splitDigits text.toList
  guard (hasDigits digits && intSuffixes.contains (String.ofList suffix))
  let value ← Numeral.readDecimal? digits
  return (value, String.ofList suffix)

/-- The digits and type name of a float literal such as `1.5f32`. -/
def suffixedFloat? (text : String) : Option (List Char × String) := do
  let (whole, rest) := splitDigits text.toList
  guard (hasDigits whole && rest.headD ' ' == '.')
  let fraction := rest.tail.takeWhile Char.isDigit
  let suffix := String.ofList (rest.tail.dropWhile Char.isDigit)
  guard (!fraction.isEmpty && (suffix == "f32" || suffix == "f64"))
  return (whole ++ '.' :: fraction, suffix)

private def dropSpaces (text : List Char) : List Char :=
  text.dropWhile fun c => c == ' ' || c == '\t' || c == '\n' || c == '\x0c' || c == '\r'

/-- The bounds of a range such as `1..=5`, and whether the upper one belongs to it. -/
def rangeText? (text : String) : Option (Int × Int × Bool) := do
  let (low, rest) := splitDigits text.toList
  let (inclusive, rest) ← match dropSpaces rest with
    | '.' :: '.' :: '=' :: rest => some (true, rest)
    | '.' :: '.' :: rest => some (false, rest)
    | _ => none
  let (high, rest) := splitDigits (dropSpaces rest)
  guard (rest.isEmpty)
  return (← Numeral.readDecimal? low, ← Numeral.readDecimal? high, inclusive)

def afterMut? (text : String) : Option String :=
  if text.startsWith "mut " then some (Text.trim (text.drop 4).toString) else none

/-- A literal or a name as an expression. -/
def readScalarExpr (input : Input) (node : Node) (tag raw : String) : Read Expr :=
  let info : NodeInfo := { span := spanOf input node }
  let text := Text.trim raw
  if tag == "!!int" then
    match Numeral.readInt? text.toList with
    | some value => .ok (.int info value "")
    | none => refuse input node (.badInteger text)
  else if tag == "!!float" then
    match Numeral.readFloat text.toList with
    | .ok value => .ok (.float info value "")
    | .error _ => refuse input node (.badFloat text)
  else if tag == "!!bool" then
    match node.toBool? with
    | some value => .ok (.bool info value)
    | none => refuse input node (.badBoolean text)
  else if tag == "!!null" then .ok (.tuple info [])
  else
    match suffixedInt? text, suffixedFloat? text with
    | some (value, suffix), _ => .ok (.int info value suffix)
    | none, some (digits, suffix) =>
      match Numeral.readFloat digits with
      | .ok value => .ok (.float info value suffix)
      | .error _ => refuse input node (.badFloat text)
    | none, none =>
      if containsPath text.toList then
        let (enum, variant) := splitPath text
        .ok (.variant info enum variant [] [])
      else if isIdentifier text then .ok (.ident info text)
      else refuse input node (.noIdentifier text)

/-- A literal, a range or a name as a pattern. -/
def readScalarPattern (input : Input) (node : Node) (tag raw : String) : Read Pattern :=
  let info : NodeInfo := { span := spanOf input node }
  let text := Text.trim raw
  if tag == "!!int" then
    match (Numeral.readInt? text.toList).filter Numeral.fitsInt64 with
    | some value => .ok (.literal info (.int value))
    | none => refuse input node (.integerPatternRange text)
  else if tag == "!!float" then
    match Numeral.readFloat text.toList with
    | .ok value => .ok (.literal info (.float value))
    | .error _ => refuse input node (.badFloatPattern text)
  else if tag == "!!bool" then
    match node.toBool? with
    | some value => .ok (.literal info (.bool value))
    | none => refuse input node (.badBoolean text)
  else if tag == "!!null" then refuse input node .emptyPattern
  else if text == "_" then .ok (.wildcard info)
  else
    match rangeText? text with
    | some (low, high, inclusive) =>
      if Numeral.fitsInt64 low && Numeral.fitsInt64 high then .ok (.range info low high inclusive)
      else refuse input node (.rangeBound text)
    | none =>
      if containsPath text.toList then
        let (enum, variant) := splitPath text
        .ok (.variant info enum variant [] [] false)
      else
        let (name, mutable) := match afterMut? text with
          | some name => (name, true)
          | none => (text, false)
        if isIdentifier name then .ok (.binding { info, name, mutable })
        else refuse input node (.noPattern name)

mutual

def readExpr (input : Input) : Nat → Option Node → Read Expr
  | 0, _ => .error (.missing input.file .expression)
  | _, none => .error (.missing input.file .expression)
  | fuel + 1, some node =>
    match input.target node with
    | .scalar start tag text => readScalarExpr input (.scalar start tag text) tag text
    | .sequence start tag items => do
      let body ← readBlock input fuel (some (.sequence start tag items)) none (input.target node)
      return .block body
    | other => readExprFields input fuel other

/-- Reads an expression written as a mapping; the first known key decides. -/
def readExprFields (input : Input) : Nat → Node → Read Expr
  | 0, _ => .error (.missing input.file .expression)
  | fuel + 1, node => do
    let fields ← Fields.read input (some node)
    let info : NodeInfo := { span := spanOf input node }
    match fields.get? "str" with
    | some text =>
      match text.toText? with
      | some value => return .string info value
      | none => refuse input node .badString
    | none =>
    match fields.get? "template" with
    | some parts => return .template info (← readTemplate input fuel parts)
    | none =>
    if fields.has "call" then
      let callee ← readExpr input fuel (fields.get? "call")
      let args ← readExprs input fuel (fields.get? "args")
      return .call info callee args
    else if fields.has "method" then
      let method ← readScalar input (fields.get? "method")
      let receiver ← readExpr input fuel (fields.get? "on")
      let args ← readExprs input fuel (fields.get? "args")
      return .methodCall info receiver method args
    else if fields.has "op" then
      let op ← readScalar input (fields.get? "op")
      let args ← readExprs input fuel (fields.get? "args")
      match args with
      | [operand] =>
        match UnaryOp.ofText? op with
        | some op => return .unary info op operand
        | none => refuse input node (.unknownUnary op)
      | [left, right] =>
        match BinaryOp.ofText? op with
        | some op => return .binary info op left right
        | none => refuse input node (.unknownBinary op)
      | _ => refuse input node (.operandCount op)
    else if fields.has "mut_ref" then
      return .ref info true (← readExpr input fuel (fields.get? "mut_ref"))
    else if fields.has "ref" then
      return .ref info false (← readExpr input fuel (fields.get? "ref"))
    else if fields.has "deref" then
      return .deref info (← readExpr input fuel (fields.get? "deref"))
    else if fields.has "field" then
      let name ← readScalar input (fields.get? "field")
      return .field info (← readExpr input fuel (fields.get? "of")) name
    else if fields.has "index" then
      let index ← readExpr input fuel (fields.get? "index")
      return .index info (← readExpr input fuel (fields.get? "of")) index
    else if fields.has "struct" then
      let name ← readScalar input (fields.get? "struct")
      return .struct info name (← readInits input fuel (fields.get? "fields"))
    else if fields.has "variant" then
      let path ← readScalar input (fields.get? "variant")
      let (enum, variant) := splitPath path
      let args ← readExprs input fuel (fields.get? "args")
      let inits ← readInits input fuel (fields.get? "fields")
      return .variant info enum variant args inits
    else if fields.has "fields" then
      return .struct info "" (← readInits input fuel (fields.get? "fields"))
    else if fields.has "tuple" then
      return .tuple info (← readExprs input fuel (fields.get? "tuple"))
    else if fields.has "array" then
      return .array info (← readExprs input fuel (fields.get? "array"))
    else if fields.has "cast" then
      let operand ← readExpr input fuel (fields.get? "cast")
      match ← readType input (fields.get? "to") with
      | some target => return .cast info operand target
      | none => refuse input node .castWithoutType
    else if fields.has "assign" then
      let target ← readExpr input fuel (fields.get? "assign")
      let value ← readExpr input fuel (fields.get? "value")
      return .assign info target value
    else if fields.has "match" then
      let scrutinee ← readExpr input fuel (fields.get? "match")
      match present input (fields.get? "arms") with
      | some (.sequence _ _ items) =>
        return .select info scrutinee (← items.mapM (readArm input fuel))
      | _ => refuse input node .noArms
    else if fields.has "if" then
      let condition ← readExpr input fuel (fields.get? "if")
      let consequent ← readExpr input fuel (fields.get? "then")
      let alternative ← match present input (fields.get? "else") with
        | some alternative => do pure (some (← readExpr input fuel (some alternative)))
        | none => pure none
      return .branch info condition consequent alternative
    else if fields.has "block" then
      return .block (← readBlock input fuel (fields.get? "block") (fields.get? "value") node)
    else refuse input node (.unknownExpression fields.keys)

def readExprs (input : Input) : Nat → Option Node → Read (List Expr)
  | 0, _ => .error (.missing input.file .expression)
  | fuel + 1, node =>
    match present input node with
    | none => .ok []
    | some node =>
      match input.target node with
      | .sequence _ _ items => items.mapM fun item => readExpr input fuel (some item)
      | other => refuse input other .noExpressionList

def readInits (input : Input) : Nat → Option Node → Read (List FieldInit)
  | 0, _ => .error (.missing input.file .expression)
  | fuel + 1, node =>
    match present input node with
    | none => .ok []
    | some node => do
      let fields ← Fields.read input (some node)
      fields.entries.mapM fun (name, value) => do
        return .mk name (spanOf input value) (← readExpr input fuel (some value))

def readArm (input : Input) : Nat → Node → Read MatchArm
  | 0, _ => .error (.missing input.file .expression)
  | fuel + 1, node => do
    let fields ← Fields.read input (some node)
    let pattern ← readPattern input fuel (fields.get? "pattern")
    let guard ← match present input (fields.get? "guard") with
      | some guard => do pure (some (← readExpr input fuel (some guard)))
      | none => pure none
    let body ← readExpr input fuel (fields.get? "body")
    return .mk (spanOf input node) pattern guard body

/-- Reads the parts of a template: mappings with a text are literal, all else is interpolated. -/
def readTemplate (input : Input) : Nat → Node → Read (List TemplatePart)
  | 0, _ => .error (.missing input.file .expression)
  | fuel + 1, node =>
    match input.target node with
    | .sequence _ _ items => items.mapM fun item => do
      let text ← match input.target item with
        | .mapping start tag entries => do
          let fields ← Fields.read input (some (.mapping start tag entries))
          pure (fields.get? "text")
        | _ => pure none
      match text with
      | some text =>
        match text.toText? with
        | some text => return .text text
        | none => refuse input item .badTemplateText
      | none => return .value (← readExpr input fuel (some item))
    | other => refuse input other .noTemplateParts

/-- Reads a block from its statements and its value; without statements it stands at `place`. -/
def readBlock (input : Input) : Nat → Option Node → Option Node → Node → Read Block
  | 0, _, _, _ => .error (.missing input.file .expression)
  | fuel + 1, stmts, tail, place => do
    let (span, stmts) ← match present input stmts with
      | none => pure (spanOf input place, [])
      | some node =>
        match input.target node with
        | .sequence start tag items => do
          let stmts ← items.mapM (readStmt input fuel)
          pure (spanOf input (.sequence start tag items), stmts)
        | other => refuse input other .noStatementList
    let tail ← match present input tail with
      | some tail => do pure (some (← readExpr input fuel (some tail)))
      | none => pure none
    return .mk { span } stmts tail

def readStmt (input : Input) : Nat → Node → Read Stmt
  | 0, _ => .error (.missing input.file .expression)
  | fuel + 1, item => do
    let node := input.target item
    let span := spanOf input node
    let fields ← match node with
      | .mapping .. => Fields.read input (some node)
      | _ => pure ⟨node, []⟩
    if fields.has "let" then readLet input fuel fields
    else if fields.has "return" then
      let value ← match present input (fields.get? "return") with
        | some value => do pure (some (← readExpr input fuel (some value)))
        | none => pure none
      return .ret span value
    else if fields.has "while" then
      let condition ← readExpr input fuel (fields.get? "while")
      let body ← readBlock input fuel (fields.get? "do") none node
      return .loop span condition body
    else if fields.has "for" then readFor input fuel fields
    else return .expr span (← readExpr input fuel (some node))

/-- Reads a counted loop; a header that stands for nothing loops forever. -/
def readFor (input : Input) : Nat → Fields → Read Stmt
  | 0, _ => .error (.missing input.file .expression)
  | fuel + 1, fields => do
    let header ← match present input (fields.get? "for") with
      | some header => Fields.read input (some header)
      | none => pure ⟨fields.node, []⟩
    let init ← match present input (header.get? "init") with
      | some init => do pure (some (← readStmt input fuel init))
      | none => pure none
    let condition ← match present input (header.get? "cond") with
      | some condition => do pure (some (← readExpr input fuel (some condition)))
      | none => pure none
    let update ← match present input (header.get? "update") with
      | some update => do pure (some (← readExpr input fuel (some update)))
      | none => pure none
    let body ← readBlock input fuel (fields.get? "do") none fields.node
    return .counted (spanOf input fields.node) init condition update body

def readLet (input : Input) : Nat → Fields → Read Stmt
  | 0, _ => .error (.missing input.file .pattern)
  | fuel + 1, fields => do
    let pattern ← readPattern input fuel (fields.get? "let")
    let mutable ← readFlag input (fields.get? "mut")
    let pattern ←
      if !mutable then pure pattern
      else match pattern with
        | .binding b => pure (.binding { b with mutable := true })
        | _ => refuse input fields.node .mutOnPattern
    let type ← readType input (fields.get? "type")
    let init ← match present input (fields.get? "value") with
      | some value => do pure (some (← readExpr input fuel (some value)))
      | none => pure none
    return .bind (spanOf input fields.node) pattern type init

def readPattern (input : Input) : Nat → Option Node → Read Pattern
  | 0, _ => .error (.missing input.file .pattern)
  | _, none => .error (.missing input.file .pattern)
  | fuel + 1, some node =>
    match input.target node with
    | .scalar start tag text => readScalarPattern input (.scalar start tag text) tag text
    | .mapping start tag entries => readPatternFields input fuel (.mapping start tag entries)
    | other => refuse input other (.misplacedInPattern other.tag)

/-- Reads a pattern written as a mapping; the first known key decides. -/
def readPatternFields (input : Input) : Nat → Node → Read Pattern
  | 0, _ => .error (.missing input.file .pattern)
  | fuel + 1, node => do
    let fields ← Fields.read input (some node)
    let info : NodeInfo := { span := spanOf input node }
    match fields.get? "str" with
    | some text =>
      match text.toText? with
      | some value => return .literal info (.string value)
      | none => refuse input node .badStringPattern
    | none =>
    if fields.has "tuple" then
      return .tuple info (← readPatterns input fuel (fields.get? "tuple"))
    else if fields.has "list" then
      let front ← readPatterns input fuel (fields.get? "list")
      match present input (fields.get? "rest") with
      | none => return .list info front false none
      | some rest =>
        if rest.tag == "!!bool" then return .list info front (← readFlag input (some rest)) none
        else if rest.keyText == "_" then return .list info front true none
        else
          match ← readPattern input fuel (some rest) with
          | .binding b => return .list info front true (some b)
          | _ => refuse input rest .restNotName
    else if fields.has "record" then
      let name ← readScalar input (fields.get? "record")
      let parts ← readFieldPatterns input fuel (fields.get? "fields")
      return .record info name parts (← readFlag input (fields.get? "rest"))
    else if fields.has "variant" then
      let path ← readScalar input (fields.get? "variant")
      let (enum, variant) := splitPath path
      let args ← readPatterns input fuel (fields.get? "args")
      let parts ← readFieldPatterns input fuel (fields.get? "fields")
      return .variant info enum variant args parts (← readFlag input (fields.get? "rest"))
    else if fields.has "or" then
      let choices ← readPatterns input fuel (fields.get? "or")
      if choices.length < 2 then refuse input node .fewAlternatives
      else return .alternatives info choices
    else if fields.has "range" then
      match (fields.get? "range").bind input.document.toInt64s? with
      | some [low, high] =>
        let inclusive ← match present input (fields.get? "inclusive") with
          | some flag => readFlag input (some flag)
          | none => pure true
        return .range info low high inclusive
      | _ => refuse input node .badRange
    else if fields.has "guard" then
      let inner ← readPattern input fuel (fields.get? "guard")
      let condition ← readExpr input fuel (fields.get? "if")
      return .guarded info inner condition
    else refuse input node (.unknownPattern fields.keys)

def readPatterns (input : Input) : Nat → Option Node → Read (List Pattern)
  | 0, _ => .error (.missing input.file .pattern)
  | fuel + 1, node =>
    match present input node with
    | none => .ok []
    | some node =>
      match input.target node with
      | .sequence _ _ items => items.mapM fun item => readPattern input fuel (some item)
      | other => refuse input other .noPatternList

def readFieldPatterns (input : Input) : Nat → Option Node → Read (List FieldPattern)
  | 0, _ => .error (.missing input.file .pattern)
  | fuel + 1, node =>
    match present input node with
    | none => .ok []
    | some node => do
      let fields ← Fields.read input (some node)
      fields.entries.mapM fun (name, value) => do
        return .mk name (← readPattern input fuel (some value))

end

def readFieldDecls (input : Input) (node : Option Node) : Read (List FieldDecl) :=
  match present input node with
  | none => .ok []
  | some node => do
    let fields ← Fields.read input (some node)
    fields.entries.mapM fun (name, value) => do
      match ← readType input (some value) with
      | some type => return { name, type, span := spanOf input value }
      | none => refuse input fields.node (.untypedField name)

def readStructDecl (input : Input) (fields : Fields) : Read StructDecl := do
  let name ← readScalar input (fields.get? "struct")
  let typeParams ← readNames input (fields.get? "generics")
  let decls ← readFieldDecls input (fields.get? "fields")
  return { name, typeParams, fields := decls, span := spanOf input fields.node }

def readVariantDecl (input : Input) (name : String) (node : Node) : Read VariantDecl := do
  let span := spanOf input node
  if node.isNull then return { name, payload := [], fields := [], span }
  else
    match node with
    | .sequence _ _ items =>
      let payload ← items.mapM fun item => readType input (some item)
      return { name, payload, fields := [], span }
    | .mapping .. => return { name, payload := [], fields := ← readFieldDecls input (some node), span }
    | _ => refuse input node (.badPayload name)

def readEnumDecl (input : Input) (fields : Fields) : Read EnumDecl := do
  let name ← readScalar input (fields.get? "enum")
  let typeParams ← readNames input (fields.get? "generics")
  let variants ← Fields.read input (fields.get? "variants")
  let variants ← variants.entries.mapM fun (name, node) => readVariantDecl input name node
  return { name, typeParams, variants, span := spanOf input fields.node }

def readReceiver (input : Input) (name : String) (fields : Fields) : Read Receiver := do
  let typeName ← match readScalar input (fields.get? "on") with
    | .ok typeName => pure typeName
    | .error _ => refuse input fields.node (.methodWithoutType name)
  let mode ← match fields.get? "receiver" with
    | none => pure SelfMode.shared
    | some node => do
      let text ← readScalar input (some node)
      if text == "self" then pure .value
      else if text == "&self" then pure .shared
      else if text == "&mut self" then pure .exclusive
      else refuse input node (.unknownReceiver text)
  return { typeName, mode, span := spanOf input fields.node }

/-- Reads one parameter, a mapping with a single entry. -/
def readParam (input : Input) (node : Node) : Read Param := do
  let fields ← Fields.read input (some node)
  match fields.entries with
  | [(key, value)] =>
    let (name, mutable) := match afterMut? key with
      | some name => (name, true)
      | none => (key, false)
    match ← readType input (some value) with
    | some type => return { name, type, mutable, span := spanOf input node }
    | none => refuse input node (.untypedParam name)
  | _ => refuse input node .badParam

def readFuncDecl (input : Input) (fuel : Nat) (fields : Fields) : Read FuncDecl := do
  let isMethod := fields.has "method"
  let name ← readScalar input (fields.get? (if isMethod then "method" else "fn"))
  let receiver ←
    if isMethod then do pure (some (← readReceiver input name fields)) else pure none
  let typeParams ← readNames input (fields.get? "generics")
  let params ← match present input (fields.get? "params") with
    | none => pure []
    | some (.sequence _ _ items) => items.mapM (readParam input)
    | some other => refuse input other .paramsNotList
  let result ← readType input (fields.get? "returns")
  let lives ← match fields.get? "lives" with
    | none => pure none
    | some node => do
      let sources ← readNames input (some node)
      pure (some { sources, span := spanOf input node : LivesClause })
  let body ← readBlock input fuel (fields.get? "body") (fields.get? "value") fields.node
  return { name, typeParams, receiver, params, result, lives, body
           span := spanOf input fields.node }

def readItem (input : Input) (fuel : Nat) (node : Node) : Read Item := do
  let fields ← Fields.read input (some node)
  if fields.has "struct" then return .struct (← readStructDecl input fields)
  else if fields.has "enum" then return .enum (← readEnumDecl input fields)
  else if fields.has "fn" || fields.has "method" then
    return .function (← readFuncDecl input fuel fields)
  else refuse input node (.unknownItem fields.keys)

/-- Reads a program. No path without repetition is longer than the document has nodes, those behind
aliases included. -/
def readProgram (input : Input) : Read Program := do
  let root := input.document.root
  let fuel := 16 * root.size + 16
  let fields ← Fields.read input (some root)
  let language ← match fields.get? "language" with
    | none => pure ""
    | some node => readScalar input (some node)
  let items ← match present input (fields.get? "items") with
    | none => pure []
    | some (.sequence _ _ items) => items.mapM (readItem input fuel)
    | some other => refuse input other .itemsNotList
  return { language, file := input.file, items }

end Syntax

end TreeCheck
