import SchemaCompiler.Keyword.Vocabulary

/-!
# The discriminator

A property of the data, its tag, selects the one schema of `oneOf` that is applied.
-/
namespace SchemaCompiler.Discriminator

def branches (o : Occurrence) : List Json := ((o.parent.get? "oneOf").bind Json.array?).getD []

def path (o : Occurrence) : String := o.site.schemaPath ++ "/discriminator"

def mappedTags (mapping : List (String × Json)) (reference : String) : List String :=
  (mapping.filter fun (_, target) => target == .string reference).map Prod.fst

def declaredTags (property : String) (schema : Json) : List String :=
  match Json.Pointer.get? ("/properties/" ++ Json.Pointer.escape property) schema with
  | none => []
  | some tag =>
    ((tag.get? "const").bind Json.string?).toList
      ++ (((tag.get? "enum").bind Json.array?).getD []).filterMap Json.string?

/-- The tags of a branch: those mapped to it, or else those that it declares. -/
def branchTags (s : Session) (o : Occurrence) (property : String) (branch : Json) : List String :=
  let mapping := ((o.value.get? "mapping").bind Json.object?).getD []
  match (branch.get? "$ref").bind Json.string? with
  | none => declaredTags property branch
  | some reference =>
    let mapped := mappedTags mapping reference
    if mapped.isEmpty then
      match s.resources.resolve reference o.site.base with
      | .ok place => ((place.schema?).map (declaredTags property)).getD []
      | .error _ => []
    else mapped

def addTags (path : String) (i : Nat) (known : List (String × Nat)) :
    List String → Except CompileError (List (String × Nat))
  | [] => .ok known
  | tag :: rest =>
    if Assoc.contains tag known then .error (.duplicateTag tag path)
    else addTags path i (known ++ [(tag, i)]) rest

def tagsFrom (s : Session) (o : Occurrence) (property : String) (i : Nat)
    (known : List (String × Nat)) : List Json → Except CompileError (List (String × Nat))
  | [] => .ok known
  | branch :: rest => do
    let tags := branchTags s o property branch
    if tags.isEmpty then throw (.invalidSchema (path o) (.untagged i property))
    let known ← addTags (path o) i known tags
    tagsFrom s o property (i + 1) known rest

def tagStem : LocalStem := .of "tag"

def params (tag : Name) (property error : String) : List (String × Expr) :=
  [("tag", .var tag), ("tagName", .str property), ("error", .str error)]

def selects (tags : List (String × Nat)) (tag : Name) (i : Nat) : Expr :=
  .any ((tags.filter fun (_, j) => j == i).map fun (t, _) => .equals (.var tag) (.str t))

def liftExcept {α : Type} : Except CompileError α → Planner α
  | .ok a => return a
  | .error e => throw e

def plan (o : Occurrence) : Planner Plan := do
  let property := ((o.value.get? "propertyName").bind Json.string?).getD ""
  let branches := branches o
  let tags ← liftExcept (tagsFrom (← Gen.session) o property 0 [] branches)
  let tag ← Gen.fresh tagStem
  let selected ← branches.zipIdx.mapM fun (branch, i) => do
    let plan ← o.require ((Inner.here branch ["oneOf", toString i]).inside [.branch])
    return (selects tags tag i, plan)
  let untagged := Plan.report (o.record (params tag property "tag")
    (.str ("tag \"" ++ property ++ "\" must be string"))) false
  let unknown := Plan.report (o.record (params tag property "mapping")
    (.str ("value of tag \"" ++ property ++ "\" must be in oneOf"))) false
  return .seq (.quiet [.declare tag (some (.index o.data (.str property))) true])
    (.choose unknown (((Expr.typeIs (.var tag) .string).negate, untagged) :: selected))

def check (v : Json) (_ : Json) : Except SchemaFault Unit :=
  if !((v.get? "propertyName").map Json.isString).getD false then .error .noTagName
  else
    match v.get? "mapping" with
    | none => .ok ()
    | some (.object members) =>
      if members.all fun (_, target) => target.isString then .ok () else .error .badMapping
    | some _ => .error .badMapping

def definition : KeywordDefinition :=
  { KeywordDefinition.plain "discriminator" (.code plan) with
    types := [.object]
    valueTypes := [.object]
    requires := ["oneOf"]
    supersedes := ["oneOf"]
    check := some check }

end SchemaCompiler.Discriminator
