import Unnest.Source.Builder
import Unnest.Source.Syntax
/-!
# From source statements to functions

Each statement is one step of a builder; the statements nested in it run while the builder fills
the region they belong to.
-/

namespace Unnest.Source

/-- Gives a value a name. -/
def bindValue (name : String) (v : ValueId) : Build Unit :=
  modify fun b => { b with values := b.values.insert name v }

/-- Binds the result of a step, if a name is given. -/
def bindTo (bind : Option String) (step : Build ValueId) : Build Unit := do
  let v ← step
  match bind with
  | some name => bindValue name v
  | none => return ()

/-- Binds names to values, as many as there are of both. -/
def bindAll (names : List String) (vs : List ValueId) : Build Unit :=
  (names.zip vs).forM fun p => bindValue p.1 p.2

/-- The value an operand stands for. -/
def Operand.resolve : Operand → Build ValueId
  | named name => do
    match (← get).values.get? name with
    | some v => return v
    | none => throw (.unbound name)
  | id v => return v

/-- The block a place stands for. -/
def Place.resolve : Place → Build BlockId
  | named name => do
    match (← get).blocks.get? name with
    | some b => return b
    | none => throw (.unbound name)
  | id b => return b

/-- The values operands stand for, in order. -/
def resolveAll (operands : List Operand) : Build (List ValueId) :=
  operands.mapM Operand.resolve

mutual

/-- Builds one statement at the cursor. -/
def Stmt.build : Stmt → Build Unit
  | .entry bind => do
    match bind, ← Build.entry with
    | some name, some slot => bindValue name slot
    | _, _ => return ()
  | .exit => Build.mark .exit []
  | .param index bind => bindTo bind (Build.param index)
  | .constant value ty bind => bindTo bind (Build.constant value ty)
  | .null bind => bindTo bind (Build.valueOp (.instr .null) [] .null)
  | .var ty init bind => do
    let init ← init.mapM Operand.resolve
    bindTo bind (Build.allocate ty init)
  | .load ptr bind => do bindTo bind (Build.load (← ptr.resolve))
  | .store value ptr => do Build.store (← value.resolve) (← ptr.resolve)
  | .binary op lhs rhs bind => do
    bindTo bind (Build.binary op (← lhs.resolve) (← rhs.resolve))
  | .call callee args results bind => do
    bindAll bind (← Build.results (.construct (.call callee)) (← resolveAll args) results)
  | .callIndirect callee args results bind => do
    let operands := (← callee.resolve) :: (← resolveAll args)
    bindAll bind (← Build.results (.construct .callIndirect) operands results)
  | .throw value => do Build.mark .throw [← value.resolve]
  | .ret => Build.mark .ret []
  | .retVal value => do Build.retVal (← value.resolve)
  | .yieldVal value => do Build.yieldVal (← value.resolve)
  | .brk label => Build.mark (.brk label) []
  | .cont label => Build.mark (.cont label) []
  | .ifThen cond body => do Build.ifThen (← cond.resolve) (buildAll body)
  | .ifElse cond body alternative => do
    Build.ifElse (← cond.resolve) (buildAll body) (buildAll alternative)
  | .ifValues cond results body bodyValues alternative alternativeValues bind => do
    let cond ← cond.resolve
    bindAll bind (← Build.ifValues cond results
      (do buildAll body; resolveAll bodyValues)
      (do buildAll alternative; resolveAll alternativeValues))
  | .whileLoop label cond flag body =>
    Build.whileLoop label (do buildAll cond; flag.resolve) (buildAll body)
  | .whileCarried label inits condArgs cond flag forward bodyArgs body next bind => do
    bindAll bind (← Build.whileCarried label (← resolveAll inits)
      (fun args => do
        bindAll condArgs args
        buildAll cond
        return (← flag.resolve, ← resolveAll forward))
      (fun args => do
        bindAll bodyArgs args
        buildAll body
        resolveAll next))
  | .doWhile label body cond flag =>
    Build.doWhile label (buildAll body) (do buildAll cond; flag.resolve)
  | .forLoop label cond flag body incr =>
    Build.forLoop label (do buildAll cond; flag.mapM Operand.resolve) (buildAll body)
      (buildAll incr)
  | .switch label body => Build.switch label (buildAll body)
  | .labeled label body => Build.labeled label (buildAll body)
  | .tryCatch body catches final =>
    Build.tryCatch (buildAll body) (buildAll catches) (buildAll final)
  | .catchInto type var => do Build.mark (.catchMark type) [← var.resolve]
  | .capture values fields bind => do
    bindTo bind (Build.capture (← resolveAll values) fields)
  | .stateLabel => Build.mark .stateLabel []
  | .switchState state default => do
    let state ← state.resolve
    Build.mark (.switchState (← default.resolve)) [state]
  | .newBlock bind => do
    let block ← Build.newBodyBlock
    match bind with
    | some name => modify fun b => { b with blocks := b.blocks.insert name block }
    | none => return ()
  | .cursor block => do Build.setCursor (← block.resolve)
  | .span span => Build.setSpan span
  | .op kind operands results bind => do
    bindAll bind (← Build.results kind (← resolveAll operands) results)

/-- Builds statements in order. -/
def buildAll : List Stmt → Build Unit
  | [] => return ()
  | s :: rest => do
    Stmt.build s
    buildAll rest

end

/-- The builder after the last statement of a function. -/
def FuncDecl.build (d : FuncDecl) : Except Stop Builder :=
  match buildAll d.body (Builder.new d.name d.sig) with
  | .ok _ b => .ok b
  | .error e _ => .error e

end Unnest.Source
