import TreeCheck.Source
import TreeCheck.Text.Quoted

/-!
Why a document is no syntax tree.
-/

namespace TreeCheck.Syntax

/-- A fault of one node of a document. -/
inductive Cause where
  | noMapping (tag : String)
  | duplicateKey (key : String)
  | noScalar
  | noBoolean
  | noNameList
  | badType (message : String)
  | itemsNotList
  | unknownItem (keys : List String)
  | untypedField (name : String)
  | badPayload (variant : String)
  | methodWithoutType (name : String)
  | unknownReceiver (text : String)
  | paramsNotList
  | badParam
  | untypedParam (name : String)
  | noStatementList
  | mutOnPattern
  | noExpressionList
  | badInteger (text : String)
  | badFloat (text : String)
  | badBoolean (text : String)
  | noIdentifier (text : String)
  | badString
  | unknownUnary (op : String)
  | unknownBinary (op : String)
  | operandCount (op : String)
  | castWithoutType
  | unknownExpression (keys : List String)
  | noArms
  | noPatternList
  | integerPatternRange (text : String)
  | badFloatPattern (text : String)
  | emptyPattern
  | rangeBound (text : String)
  | noPattern (text : String)
  | misplacedInPattern (tag : String)
  | badStringPattern
  | restNotName
  | fewAlternatives
  | badRange
  | unknownPattern (keys : List String)
  | noTemplateParts
  | badTemplateText
deriving DecidableEq, Repr

private def keyList (keys : List String) : String := "[" ++ " ".intercalate keys ++ "]"

def Cause.message : Cause → String
  | .noMapping tag => "expected a mapping, found " ++ tag
  | .duplicateKey key => "duplicate key " ++ Text.quote key
  | .noScalar => "expected a scalar"
  | .noBoolean => "expected a boolean"
  | .noNameList => "expected a list of names"
  | .badType message => message
  | .itemsNotList => "items must be a list"
  | .unknownItem keys => "unknown item with keys " ++ keyList keys
  | .untypedField name => "field " ++ Text.quote name ++ " has no type"
  | .badPayload variant => "variant " ++ variant ++ ": expected a list or mapping payload"
  | .methodWithoutType name => "method " ++ name ++ " needs an `on` type"
  | .unknownReceiver text => "unknown receiver " ++ Text.quote text
  | .paramsNotList => "params must be a list"
  | .badParam => "a parameter is a single `name: type` entry"
  | .untypedParam name => "parameter " ++ name ++ " has no type"
  | .noStatementList => "expected a list of statements"
  | .mutOnPattern => "`mut` applies to a single binding"
  | .noExpressionList => "expected a list of expressions"
  | .badInteger text => "bad integer literal " ++ text
  | .badFloat text => "bad float literal " ++ text
  | .badBoolean text => "bad boolean " ++ text
  | .noIdentifier text =>
    Text.quote text ++ " is not an identifier; use \x7bstr: ...\x7d for strings"
  | .badString => "bad string literal"
  | .unknownUnary op => "unknown unary operator " ++ Text.quote op
  | .unknownBinary op => "unknown binary operator " ++ Text.quote op
  | .operandCount op => "operator " ++ Text.quote op ++ " takes one or two operands"
  | .castWithoutType => "cast needs a `to` type"
  | .unknownExpression keys => "unknown expression with keys " ++ keyList keys
  | .noArms => "match needs a list of arms"
  | .noPatternList => "expected a list of patterns"
  | .integerPatternRange text => "integer pattern " ++ text ++ " out of range"
  | .badFloatPattern text => "bad float pattern " ++ text
  | .emptyPattern => "empty pattern"
  | .rangeBound text => "range bound out of range in " ++ text
  | .noPattern text => Text.quote text ++ " is not a valid pattern"
  | .misplacedInPattern tag => "unexpected " ++ tag ++ " in pattern position"
  | .badStringPattern => "bad string pattern"
  | .restNotName => "list rest must be a name"
  | .fewAlternatives => "an or-pattern needs at least two alternatives"
  | .badRange => "range needs [low, high]"
  | .unknownPattern keys => "unknown pattern with keys " ++ keyList keys
  | .noTemplateParts => "expected a list of template parts"
  | .badTemplateText => "bad template text"

/-- Something a document lacks, so that there is no place to point at. -/
inductive Missing where
  | mapping
  | value
  | expression
  | pattern
deriving DecidableEq, Repr

def Missing.text : Missing → String
  | .mapping => "mapping"
  | .value => "value"
  | .expression => "expression"
  | .pattern => "pattern"

/-- Why a text could not be read as a program. -/
inductive ReadError where
  /-- The text is no document. -/
  | malformed (file : String)
  | emptyDocument (file : String)
  | at (span : Span) (cause : Cause)
  | missing (file : String) (what : Missing)
  /-- The language of the document is not accepted. -/
  | language (file message : String)
deriving DecidableEq, Repr

def ReadError.message : ReadError → String
  | .malformed file => "failed to parse " ++ file ++ ": yaml: malformed document"
  | .emptyDocument file => file ++ ": empty document"
  | .at span cause => span.text ++ ": " ++ cause.message
  | .missing file what => file ++ ": missing " ++ what.text
  | .language file message => file ++ ": " ++ message

end TreeCheck.Syntax
