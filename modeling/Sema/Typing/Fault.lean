import Sema.Solver.Constraint

/-!
# What the type checker complains about

Each cause has one wording and one category.
-/

namespace Sema

inductive TypeFault where
  | duplicateType (name : String)
  | duplicateFunction (name : String)
  | undefinedTrait (name : String)
  | missingMethod (method traitName typeName : String)
  | foreignMethod (method traitName : String)
  | undefinedVariable (name : String)
  | undefinedPath (name : String)
  | returnOutside
  | breakOutside
  | breakValue
  | continueOutside
  | awaitOutside
  | argumentCount (function : String) (expected found : Nat)
  | unknownStruct (name : String)
  | repeatedField (field : String)
  | noField (struct field : String)
  | missingField (field struct : String)
  | literalSuffix (suffix : String) (literal : Primitive)
  | selfOutside
  | unknownType (name : String)
  | noTypeArguments (name : String)
  | typeArguments (name : String) (expected found : Nat)
  | cyclicAlias (name : String)
  | aliasArguments (name : String) (expected found : Nat)
  | unmentionedFields (fields : List String) (struct : String)
  | unknownVariant (name : String)
  | variantFields (name : String) (expected found : Nat)
  | fieldlessVariant (name : String)
  | alternativeNames
  | noTupleField (field : String) (tuple : Ty)
  | noTypeField (field : String) (type : Ty)
  | noMethod (method : String) (typeName : String)
  | methodArguments (typeName method : String) (expected found : Nat)
  | notIterable (type : Ty)
  | ambiguousField (field : String)
  | ambiguousMethod (method : String)
  | constrainedGeneric (param function : String) (type : Ty)
  | mergedGenerics (first second function : String)
  | undeclaredEffect (function : String) (effect : EffectKind)
  | unsolved (fault : SolveFault)

namespace TypeFault

def category : TypeFault → Category
  | duplicateType _ | duplicateFunction _ | undefinedTrait _ | foreignMethod .. => .name
  | undefinedVariable _ | undefinedPath _ | unknownStruct _ | noField .. => .name
  | selfOutside | unknownType _ | unknownVariant _ => .name
  | noTupleField .. | noTypeField .. | noMethod .. => .name
  | awaitOutside | undeclaredEffect .. => .effect
  | unsolved fault => fault.category
  | _ => .type

def message : TypeFault → String
  | duplicateType name => s!"type `{name}` is defined more than once"
  | duplicateFunction name => s!"function `{name}` is defined more than once"
  | undefinedTrait name => s!"undefined trait `{name}`"
  | missingMethod method traitName typeName =>
    s!"missing trait method `{method}` in impl of `{traitName}` for `{typeName}`"
  | foreignMethod method traitName => s!"method `{method}` is not a member of trait `{traitName}`"
  | undefinedVariable name => s!"Undefined variable `{name}`"
  | undefinedPath name => s!"undefined path `{name}`"
  | returnOutside => "`return` outside of a function"
  | breakOutside => "`break` outside of a loop"
  | breakValue => "`break` with a value is only allowed inside `loop`"
  | continueOutside => "`continue` outside of a loop"
  | awaitOutside => "`await` is only allowed in async functions (declare `!Async`)"
  | argumentCount function expected found =>
    s!"function `{function}` expects {expected} argument(s), found {found}"
  | unknownStruct name => s!"unknown struct `{name}`"
  | repeatedField field => s!"field `{field}` specified more than once"
  | noField struct field => s!"struct `{struct}` has no field `{field}`"
  | missingField field struct => s!"missing field `{field}` in initializer of `{struct}`"
  | literalSuffix suffix literal => s!"invalid suffix `{suffix}` for {literal.name} literal"
  | selfOutside => "`Self` is only available inside impl blocks and traits"
  | unknownType name => s!"unknown type `{name}`"
  | noTypeArguments name => s!"type `{name}` takes no type arguments"
  | typeArguments name expected found =>
    s!"type `{name}` expects {expected} type argument(s), found {found}"
  | cyclicAlias name => s!"type alias `{name}` refers to itself"
  | aliasArguments name expected found =>
    s!"type alias `{name}` expects {expected} type argument(s), found {found}"
  | unmentionedFields fields struct =>
    let list := ", ".intercalate (fields.map fun f => s!"`{f}`")
    s!"pattern does not mention field(s) {list} of `{struct}`"
  | unknownVariant name => s!"unknown variant `{name}`"
  | variantFields name expected found =>
    s!"variant `{name}` has {expected} field(s), pattern has {found}"
  | fieldlessVariant name => s!"variant `{name}` has no fields"
  | alternativeNames => "or-pattern alternatives must bind the same names"
  | noTupleField field tuple => s!"no field `{field}` on tuple `{tuple.text}`"
  | noTypeField field type => s!"no field `{field}` on type `{type.text}`"
  | noMethod method typeName => s!"no method `{method}` on type `{typeName}`"
  | methodArguments typeName method expected found =>
    s!"method `{typeName}::{method}` expects {expected} argument(s), found {found}"
  | notIterable type => s!"`{type.text}` is not iterable"
  | ambiguousField field =>
    s!"ambiguous inference: cannot determine the type whose field `{field}` is accessed"
  | ambiguousMethod method =>
    s!"ambiguous inference: cannot determine the receiver type of method `{method}`"
  | constrainedGeneric param function type =>
    s!"generic parameter `{param}` of `{function}` is constrained to `{type.text}`"
  | mergedGenerics first second function =>
    s!"generic parameters `{first}` and `{second}` of `{function}` are constrained to be the same type"
  | undeclaredEffect function effect =>
    s!"missing effect annotation: `{function}` performs `{effect.name}` but does not declare it"
  | unsolved fault => fault.message

end TypeFault

/-- An error as it is reported. -/
structure TypeError where
  message : String
  category : Category
  span : Span
  deriving DecidableEq, Inhabited

/-- Put a cause and its place into words. -/
def TypeError.ofFault (f : Spanned TypeFault) : TypeError :=
  ⟨f.node.message, f.node.category, f.span⟩

end Sema
