import OpenLustre.Studio.Workspace

/-! The requests that edit a workspace, and undo and redo, as the accesses they make. -/

namespace OpenLustre.Studio

open OpenLustre.Ir

/-- The package that carries a file's included declarations during an edit; never saved. -/
def includedPkg : String := "__included"

/-- Lustre that was imported. -/
structure Imported where
  types : List TypeDef
  constants : List ConstDef
  nodes : List NodeDef

def Imported.addTypes (imported : Imported) (pkg : Package) : Package :=
  { pkg with
    types := pkg.types ++ imported.types
    constants := pkg.constants ++ imported.constants }

def Imported.addNodes (imported : Imported) (pkg : Package) : Package :=
  { pkg with nodes := pkg.nodes ++ imported.nodes }

abbrev EditFn := Project → Json → Except String Project

/-- What a drop on the canvas decodes from its request, resolves in the whole project if
it reads that, and places in the model. -/
structure Drop where
  Decoded : Type
  Resolved : Type
  decode : Json → Except String Decoded
  resolve : Decoded → Except String Resolved ⊕ (Project → Except String Resolved)
  place : Resolved → Project → Except String Project

/-- An operator's slice when it is built: its diagnostics and its Lustre. -/
structure Built where
  errors : Nat
  warnings : Nat
  lustre : String

/-- The workspace a server works on, with the code its handlers call: the reading and
writing of models, and what each request computes from them. -/
structure Ctx where
  path : Place → String
  lusPath : String → String
  typesFile : Bool
  native : Bool
  parseJson : String → Except String Json
  parse : Place → String → Except String Project
  print : Place → Project → Except String String
  /-- The read path: the model and the types file as they read, the files they include
  and the library, lowered. -/
  load : Except String String → Except String String → Except String Project
  /-- The packages of a model's includes, given the types file. -/
  included : Project → Except String String → List Package
  inspect : Project → Option Project → Option Project → Nat × Nat → Json
  isIdentifier : String → Bool
  toUppercase : String → String
  trim : String → String
  parseType : String → Except String Ty
  parseExpr : String → Except String Expr
  parseLustre : String → Except String Imported
  sliceForRoot : Project → String → Except String Project
  buildSlice : Project → Built
  blockCall : Drop
  operation : Drop
  typeOp : Drop
  expression : Drop

namespace Ctx

variable (ctx : Ctx)

/-- The files a snapshot is of. -/
def places : List Place := if ctx.typesFile then [.model, .types] else [.model]

def typesTarget : Place := if ctx.typesFile then .types else .model

def readFile (p : Place) : Attempt String := do
  match ← readToString p with
  | .ok text => pure text
  | .error e => .fail s!"reading {ctx.path p}: {e}"

def loadRawPath (p : Place) : Attempt Project := do
  let data ← ctx.readFile p
  .lift (ctx.parse p data)

def loadRaw : Attempt Project := ctx.loadRawPath .model

def loadProject : Attempt Project := do
  let model ← readToString .model
  let types ← readToString .types
  .lift (ctx.load model types)

/-- Write a project over a file.  There is one model format, so the check for an older
one reads the file and keeps nothing. -/
def saveRawPath (p : Place) (project : Project) : Attempt Unit := do
  if ctx.native || project.resolution.isSome then
    .fail "cannot save transient native resolution as an authored model"
  let text ← .lift (ctx.print p project)
  let _ ← readToString p
  match ← writeText p text with
  | .ok () => pure ()
  | .error e => .fail s!"writing {ctx.path p}: {e}"

/-- The texts of the files that can be read. -/
def snapshotOf : List Place → Handler Snapshot
  | [] => pure []
  | p :: ps => do
    match ← readToString p with
    | .ok text => do
      let rest ← snapshotOf ps
      pure ((p, text) :: rest)
    | .error _ => snapshotOf ps

def takeSnapshot : Handler Snapshot := snapshotOf ctx.places

def recordEdit (before : Snapshot) : Handler Unit := recordSnapshot before

def buildInspect : Attempt Json := do
  let project ← ctx.loadProject
  let machines ← ctx.loadRaw.attempt 
  let activations ← ctx.loadRaw.attempt 
  let depths ← historyDepths
  pure (ctx.inspect project machines.toOption activations.toOption depths)

def request (body : String) : Handler Json :=
  orBad ((ctx.parseJson body).mapError ("bad JSON: " ++ ·))

/-- Save an edited project and journal the edit. -/
def commit (before : Snapshot) (p : Place) (project : Project) : Handler Unit := do
  internal (ctx.saveRawPath p project)
  recordEdit before

/-- The types and constants a file includes, as a package behind its own. -/
def attachIncluded (project : Project) : Handler Project := do
  let types ← readToString .types
  let included := ctx.included project types
  let pkg : Package :=
    { name := includedPkg
      types := included.flatMap (·.types)
      constants := included.flatMap (·.constants) }
  if pkg.types.isEmpty && pkg.constants.isEmpty then pure project
  else pure { project with packages := project.packages ++ [pkg] }

def applyEditResponseTo (p : Place) (body : String) (f : EditFn) : Handler Json := do
  let req ← ctx.request body
  let before ← ctx.takeSnapshot
  let project ← internal (ctx.loadRawPath p)
  let project ← ctx.attachIncluded project
  let edited ← orBad (f project req)
  ctx.commit before p
    { edited with packages := edited.packages.filter (·.name ≠ includedPkg) }
  internal ctx.buildInspect

def applyEditResponse (body : String) (f : EditFn) : Handler Json :=
  ctx.applyEditResponseTo .model body f

def reqStr (req : Json) (key : String) : Except String String :=
  match req.string? key with
  | some s => .ok s
  | none => .error s!"missing string field `{key}`"

/-- The first package, or a new one, extended. -/
def extendFirst (f : Package → Package) (p : Project) : Project :=
  match p.packages with
  | [] => { p with packages := [f { name := "user" }] }
  | pkg :: rest => { p with packages := f pkg :: rest }

/-- The first package of the name, extended. -/
def extendNamed (name : String) (f : Package → Package) : List Package → Option (List Package)
  | [] => none
  | pkg :: rest =>
    if pkg.name = name then some (f pkg :: rest)
    else (extendNamed name f rest).map (pkg :: ·)

def editAddNode : EditFn := fun project req => do
  let name ← reqStr req "name"
  if !ctx.isIdentifier name then .error s!"`{name}` is not a valid identifier"
  if (project.findNode name).isSome then .error s!"node `{name}` already exists"
  let kind ← match (req.string? "kind").getD "operator" with
    | "function" => .ok .function
    | "operator" => .ok .operator
    | other => .error s!"unknown kind `{other}` (function|operator)"
  let node : NodeDef :=
    { name := name, kind := kind, inputs := [], outputs := [], locals := [], equations := [] }
  let add (pkg : Package) : Package := { pkg with nodes := pkg.nodes ++ [node] }
  match req.string? "package" with
  | none => .ok (extendFirst add project)
  | some p =>
    match extendNamed p add (extendFirst id project).packages with
    | some packages => .ok { project with packages := packages }
    | none => .error s!"package `{p}` not found"

/-- Create an operator and its own Lustre file, whose failure never fails the edit. -/
def addNodeResponse (body : String) : Handler Json := do
  let resp ← ctx.applyEditResponse body ctx.editAddNode
  match (ctx.parseJson body).toOption.bind (·.string? "name") with
  | some name => do
    let _ ← writeLus name
      (s!"-- {name}.lus — generated by OpenLustre Studio.\n" ++
        s!"-- `{name}` has not been built yet. Build it from the Build dock\n" ++
        "-- (step 1) to fill this file with its Lustre.\n")
    pure resp
  | none => pure resp

/-- Extend the first package of the file that holds the project's types and constants. -/
def addTo (p : Place) (f : Package → Package) : Handler Json := do
  let before ← ctx.takeSnapshot
  let doc ← internal (ctx.loadRawPath p)
  ctx.commit before p (extendFirst f doc)
  internal ctx.buildInspect

def recordFields : List Json → Except String (List RecordField)
  | [] => .ok []
  | f :: fs => do
    let name ← match f.string? "name" with
      | some n => if ctx.isIdentifier n then .ok n else .error s!"`{n}` is not a valid field name"
      | none => .error "struct field missing `name`"
    let text ← match f.string? "type" with
      | some t => .ok t
      | none => .error "struct field missing `type`"
    let ty ← (ctx.parseType text).mapError (s!"field `{name}`: " ++ ·)
    let rest ← recordFields fs
    .ok (⟨name, ty⟩ :: rest)

/-- The type a request declares. -/
def typeBody (req : Json) (name : String) : Except String TypeBody :=
  match req.string? "kind" with
  | some "enum" =>
    let variants := (((req.get? "variants").bind Json.asArray?).getD []).filterMap Json.asStr?
    if variants.isEmpty then .error "enum needs at least one variant"
    else
      match variants.find? (!ctx.isIdentifier ·) with
      | some v => .error s!"`{v}` is not a valid variant name"
      | none => .ok (.enum ⟨name, variants⟩)
  | some "record" => do
    let fields ← ctx.recordFields (((req.get? "fields").bind Json.asArray?).getD [])
    if fields.isEmpty then .error "struct needs at least one field"
    else .ok (.record name fields)
  | some "alias" => do
    let target ← match req.string? "target" with
      | some t => .ok t
      | none => .error "alias missing `target` (e.g. \"float32[3]\")"
    let ty ← (ctx.parseType target).mapError (s!"target `{target}`: " ++ ·)
    .ok (.aliasOf name ty)
  | _ => .error "unrecognized type kind; supported types are enums, structs, and aliases"

def addTypeResponse (body : String) : Handler Json := do
  let req ← ctx.request body
  let name ← orBad (reqStr req "name")
  refuseIf (!ctx.isIdentifier name) s!"`{name}` is not a valid type name"
  let full ← internal ctx.loadProject
  refuseIf (full.allTypes.any (·.name = name)) s!"type `{name}` already exists"
  let decl ← orBad (ctx.typeBody req name)
  ctx.addTo ctx.typesTarget fun pkg => { pkg with types := pkg.types ++ [⟨decl⟩] }

def addConstantResponse (body : String) : Handler Json := do
  let req ← ctx.request body
  let rawName := ctx.trim (← orBad (reqStr req "name"))
  refuseIf (!ctx.isIdentifier rawName) s!"`{rawName}` is not a valid constant name"
  let name := ctx.toUppercase rawName
  let tyStr ← orBad (reqStr req "type")
  let ty ← orBad ((ctx.parseType tyStr).mapError (s!"type `{tyStr}`: " ++ ·))
  let valueStr := ctx.trim (← orBad (reqStr req "value"))
  refuseIf (valueStr.isEmpty) "a constant needs a value (e.g. 32, true, [1;2;3])"
  let value ← orBad ((ctx.parseExpr valueStr).mapError (s!"value `{valueStr}`: " ++ ·))
  let full ← internal ctx.loadProject
  refuseIf (full.allConstants.any (·.name = name)) s!"constant `{name}` already exists"
  refuseIf (full.allNodes.any (·.name = name)) s!"`{name}` already names an operator"
  ctx.addTo ctx.typesTarget fun pkg =>
    { pkg with constants := pkg.constants ++ [⟨name, ty, value⟩] }

/-- Remove a declaration from the first of the files that has it. -/
def removeFrom (has : Package → Bool) (drop : Package → Package) (absent : String) :
    List Place → Handler Json
  | [] => bad absent
  | p :: ps => do
    let doc ← internal (ctx.loadRawPath p)
    if doc.packages.any has then
      let before ← ctx.takeSnapshot
      ctx.commit before p { doc with packages := doc.packages.map drop }
      internal ctx.buildInspect
    else removeFrom has drop absent ps

def candidates : List Place := if ctx.typesFile then [.types, .model] else [.model]

def removeTypeResponse (body : String) : Handler Json := do
  let req ← ctx.request body
  let name ← orBad (reqStr req "name")
  ctx.removeFrom (·.types.any (·.name = name))
    (fun pkg => { pkg with types := pkg.types.filter (·.name ≠ name) })
    s!"type `{name}` not found in the editable files (stdlib types cannot be removed)"
    ctx.candidates

def removeConstantResponse (body : String) : Handler Json := do
  let req ← ctx.request body
  let name ← orBad (reqStr req "name")
  ctx.removeFrom (·.constants.any (·.name = name))
    (fun pkg => { pkg with constants := pkg.constants.filter (·.name ≠ name) })
    s!"constant `{name}` not found in the editable files" ctx.candidates

/-- The imported names the project has already. -/
def clashes (full : Project) (imported : Imported) : List String :=
  ((imported.nodes.filter fun n => (full.findNode n.name).isSome).map
      fun n => s!"operator `{n.name}`")
    ++ ((imported.types.filter fun t => full.allTypes.any (·.name = t.name)).map
      fun t => s!"type `{t.name}`")
    ++ (imported.constants.filter fun c => full.allConstants.any (·.name = c.name)).map
      fun c => s!"constant `{c.name}`"

/-- A blank Lustre file for each imported operator, whose failure is ignored. -/
def importStubs : List NodeDef → Handler Unit
  | [] => pure ()
  | n :: ns => do
    let _ ← writeLus n.name
      (s!"-- {n.name}.lus — generated by OpenLustre Studio.\n" ++
        s!"-- `{n.name}` was imported; build it from the Build dock to (re)generate its Lustre.\n")
    importStubs ns

/-- Without a types file the types and constants go with the nodes, in one write. -/
def importNodes (imported : Imported) : Handler Unit := do
  let m ← internal ctx.loadRaw
  let m := extendFirst imported.addNodes m
  internal (ctx.saveRawPath .model
    (if ctx.typesFile then m else extendFirst imported.addTypes m))

def importTypes (imported : Imported) : Handler Unit :=
  if ctx.typesFile && (!imported.types.isEmpty || !imported.constants.isEmpty) then do
    let d ← internal (ctx.loadRawPath .types)
    internal (ctx.saveRawPath .types (extendFirst imported.addTypes d))
  else pure ()

/-- Nodes go to the model file, types and constants to the types file when there is one. -/
def importLustreResponse (body : String) : Handler Json := do
  let req ← ctx.request body
  let text ← orBad (reqStr req "lustre")
  let imported ← orBad ((ctx.parseLustre text).mapError ("could not parse Lustre: " ++ ·))
  let full ← internal ctx.loadProject
  let found := clashes full imported
  refuseIf (!found.isEmpty)
    ("already defined in this project: " ++ String.intercalate ", " found)
  let before ← ctx.takeSnapshot
  ctx.importNodes imported
  ctx.importTypes imported
  recordEdit before
  importStubs imported.nodes
  pure (.obj [("ok", .bool true), ("nodes", .arr (imported.nodes.map (.str ·.name))),
    ("types", .arr (imported.types.map (.str ·.name))),
    ("constants", .arr (imported.constants.map (.str ·.name)))])

def resolveDrop (d : Drop) (decoded : d.Decoded) : Handler d.Resolved :=
  match d.resolve decoded with
  | .inl r => orBad r
  | .inr resolve => do
    let full ← internal ctx.loadProject
    orBad (resolve full)

def dropResponse (d : Drop) (body : String) : Handler Json := do
  let req ← ctx.request body
  let decoded ← orBad (d.decode req)
  let resolved ← ctx.resolveDrop d decoded
  let before ← ctx.takeSnapshot
  let project ← internal ctx.loadRaw
  let project ← orBad (d.place resolved project)
  ctx.commit before .model project
  internal ctx.buildInspect

def addBlockCallResponse (body : String) : Handler Json := ctx.dropResponse ctx.blockCall body
def addOperationResponse (body : String) : Handler Json := ctx.dropResponse ctx.operation body
def addTypeOpResponse (body : String) : Handler Json := ctx.dropResponse ctx.typeOp body
def addExpressionResponse (body : String) : Handler Json := ctx.dropResponse ctx.expression body

def selectedNodeName (p : Project) (name : String) : Option String := do
  let resolved ← p.resolvedNodeName name
  match p.resolution with
  | none => some resolved
  | some metadata => do
    let symbol ← metadata.symbols.find? fun s => s.kind = "node" ∧ s.resolvedName = resolved
    if symbol.projectId = metadata.rootProjectId then some resolved
    else do
      let root ← metadata.projects.find? (·.projectId = metadata.rootProjectId)
      if symbol.exported ∧ root.dependencies.any (·.projectId = symbol.projectId) then some resolved
      else none

def notBuilt (message : String) : Json := .obj [("ok", .bool false), ("message", .str message)]

/-- Make the chosen operator the root. -/
def setRoot (main : String) : Handler Unit := do
  let before ← ctx.takeSnapshot
  let raw ← internal ctx.loadRaw
  ctx.commit before .model { raw with main := some main }

/-- Whether a build makes its operator the root first. -/
def setsRoot (project : Project) (main : String) : Bool :=
  project.resolution.isNone && project.main ≠ some main

def buildSelected (project : Project) (main : String) : Handler Json := do
  let sliced ← internal (.lift (ctx.sliceForRoot project main))
  let built := ctx.buildSlice sliced
  if built.errors > 0 then
    pure (.obj [("ok", .bool false), ("errors", .num s!"{built.errors}"),
      ("warnings", .num s!"{built.warnings}"), ("main", .str main),
      ("message", .str
        s!"`{main}`: {built.errors} error(s) — fix them in Messages before building")])
  else if project.resolution.isSome then
    pure (.obj [("ok", .bool true), ("errors", .num "0"), ("warnings", .num s!"{built.warnings}"),
      ("main", .str main), ("lustre", .str built.lustre),
      ("message", .str s!"`{main}` valid — checked the native manifest entrypoint")])
  else
    match ← writeLus main built.lustre with
    | .ok () =>
      pure (.obj [("ok", .bool true), ("errors", .num "0"),
        ("warnings", .num s!"{built.warnings}"), ("main", .str main),
        ("path", .str (ctx.lusPath main)), ("lustre", .str built.lustre),
        ("message", .str s!"`{main}` valid — wrote {main}.lus")])
    | .error e => .fail ⟨500, s!"writing {ctx.lusPath main}: {e}"⟩

/-- The operator a build request is about. -/
def buildTarget (body : String) (project : Project) : Option String :=
  ((ctx.parseJson body).toOption.bind (·.string? "node")).or project.main

def buildModelResponse (body : String) : Handler Json := do
  let project ← internal ctx.loadProject
  match ctx.buildTarget body project with
  | none =>
    pure (notBuilt "no operator selected and no root set — pick one in the Build dock")
  | some name =>
    match selectedNodeName project name with
    | none => pure (notBuilt s!"`{name}` is not an operator in this model")
    | some main =>
      if project.resolution.isSome && project.main ≠ some main then
        pure (notBuilt ("native Studio builds use the manifest entrypoint; use CLI --root to " ++
          "generate another exported node"))
      else if setsRoot project main then
        ctx.setRoot main
        ctx.buildSelected { project with main := some main } main
      else ctx.buildSelected project main

/-- Write the files of a snapshot back. -/
def restore : Snapshot → Handler Unit
  | [] => pure ()
  | (p, text) :: rest => do
    match ← writeText p text with
    | .ok () => restore rest
    | .error e => .fail ⟨500, s!"restoring {ctx.path p}: {e}"⟩

def historyResponse (undo : Bool) : Handler Json := do
  match ← popSnapshot undo with
  | none => bad (if undo then "nothing to undo" else "nothing to redo")
  | some snap =>
    let current ← ctx.takeSnapshot
    pushSnapshot undo current
    ctx.restore snap
    internal ctx.buildInspect

end Ctx

/-- The requests that edit the workspace, and the build that may set its root. -/
inductive Request
  | edit (f : EditFn) (body : String)
  | addNode (body : String)
  | addType (body : String)
  | removeType (body : String)
  | addConstant (body : String)
  | removeConstant (body : String)
  | importLustre (body : String)
  | addBlockCall (body : String)
  | addOperation (body : String)
  | addTypeOp (body : String)
  | addExpression (body : String)
  | undo
  | redo
  | build (body : String)

namespace Request

def isBuild : Request → Bool
  | build _ => true
  | _ => false

variable (ctx : Ctx)

def handle : Request → Handler Json
  | edit f body => ctx.applyEditResponse body f
  | addNode body => ctx.addNodeResponse body
  | addType body => ctx.addTypeResponse body
  | removeType body => ctx.removeTypeResponse body
  | addConstant body => ctx.addConstantResponse body
  | removeConstant body => ctx.removeConstantResponse body
  | importLustre body => ctx.importLustreResponse body
  | addBlockCall body => ctx.addBlockCallResponse body
  | addOperation body => ctx.addOperationResponse body
  | addTypeOp body => ctx.addTypeOpResponse body
  | addExpression body => ctx.addExpressionResponse body
  | undo => ctx.historyResponse true
  | redo => ctx.historyResponse false
  | build body => ctx.buildModelResponse body

/-- A native project is read-only but for builds. -/
def route (r : Request) : Handler Json :=
  if ctx.native && !r.isBuild then
    bad ("native projects are read-only in this Studio increment; edit owned model files and " ++
      "refresh dependency snapshots explicitly")
  else r.handle ctx

def respond (r : Request) : World → Except Refusal Json × World := (r.route ctx).run World.serve

end Request

end OpenLustre.Studio
