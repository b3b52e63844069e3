import CppHdl.Lib.Scan
import CppHdl.Graph.Value

/-!
# The text of a graph

`save` writes a graph as sections of counted records; `load` reads them back,
skips sections that older texts do not have, and validates the result. A
failed extraction throws, so a text that ends early is rejected. The cursor
`currentScope` is not part of the text.
-/

namespace CppHdl

/-! ## Validation -/

namespace Graph

/-- An asynchronous reset is a scalar input port with a constant full-width value. -/
def checkReset (g : Graph) (s : State) : Except GraphError Unit :=
  if s.reset.isEmpty then .ok ()
  else if s.reset.length ≠ 1 ∨ s.resetValue.length ≠ s.bits.length ∨ s.resetValue.any (1 < ·) then
    .error (.runtime "asynchronous reset requires a constant full-width value")
  else if g.ports.any fun p => p.input ∧ p.bits = s.reset then .ok ()
  else .error (.runtime "asynchronous reset must be a scalar input port")

def checkMemoryClock (g : Graph) (clock : Int) (falling : Bool) : Except GraphError Unit :=
  if g.clockContract = .namedEdges then
    if clock < 0 ∨ g.clocks.length ≤ clock.toNat then
      .error (.runtime "invalid memory clock domain")
    else .ok ()
  else if clock ≠ -1 ∨ falling then .error (.runtime "invalid memory clock domain")
  else .ok ()

end Graph

/-- ROM contents are whole rows, padded with zeros. -/
def Memory.check (m : Memory) : Except GraphError Unit :=
  if m.width = 0 ∨ 1048576 < m.width ∨ m.depth = 0 then
    .error (.runtime "invalid graph memory dimensions")
  else if m.contents.isEmpty then .ok ()
  else if m.contents.length % m.words ≠ 0 ∨ m.contents.length / m.words ≠ m.depth then
    .error (.runtime "invalid graph ROM contents")
  else if (List.range m.contents.length).any fun i => i % m.words = m.words - 1 ∧
      mask ((m.width - 1) % 64 + 1) < m.contents.getD i 0 then
    .error (.runtime "nonzero graph ROM padding")
  else .ok ()

namespace Graph

def checkAccess (g : Graph) (a : MemoryAccess) : Except GraphError Unit :=
  if g.memories.length ≤ a.memory ∨ a.address.isEmpty ∨ 64 < a.address.length ∨
      a.enabled.length ≠ 1 then
    .error (.runtime "invalid graph memory access")
  else if a.transaction then g.checkMemoryClock a.clock a.falling
  else if a.clock ≠ -1 ∨ a.falling then
    .error (.runtime "combinational memory access has a clock")
  else .ok ()

/-- One write port; all writers of a memory share a clock edge. -/
def checkWrite (g : Graph) (writers : Std.ExtTreeMap Nat (Int × Bool)) (w : MemoryWrite) :
    Except GraphError (Std.ExtTreeMap Nat (Int × Bool)) :=
  match g.memories[w.memory]? with
  | none => .error (.runtime "invalid graph memory write")
  | some m =>
      if w.data.length ≠ m.width ∨ w.address.isEmpty ∨ 64 < w.address.length ∨
          w.enabled.length ≠ 1 then
        .error (.runtime "invalid graph memory write")
      else if !m.contents.isEmpty then .error (.runtime "write to graph ROM")
      else do
        g.checkMemoryClock w.clock w.falling
        match writers[w.memory]? with
        | none => .ok (writers.insert w.memory (w.clock, w.falling))
        | some domain =>
            if domain ≠ (w.clock, w.falling) then
              .error (.runtime "multiple clock/edge writers for memory")
            else .ok writers

/-- A clock name is an identifier of its own; earlier names are `names`. -/
def checkClock (g : Graph) (names : List String) (c : Clock) : Except GraphError (List String) :=
  if c.name.isEmpty ∨ c.frequency = 0 ∨ names.contains c.name ∨
      !(c.name.toList.headD ' ').isAlpha ∧ c.name.toList.headD ' ' ≠ '_' then
    .error (.runtime "invalid or duplicate clock name/frequency")
  else if c.name.toList.any fun d => !d.isAlphanum ∧ d ≠ '_' then
    .error (.runtime "invalid clock identifier")
  else if c.name = "eval" ∨ c.name = "step" ∨ c.name = "evaluate" ∨
      "__cpphdl_".toList.isPrefixOf c.name.toList then
    .error (.runtime ("reserved clock name: " ++ c.name))
  else if g.ports.any fun p => p.name = c.name then
    .error (.runtime ("clock conflicts with data port: " ++ c.name))
  else .ok (names ++ [c.name])

/-- A state of a named edge; the bits of earlier states are `owners`. -/
def checkState (g : Graph) (owners : List Nat) (s : State) : Except GraphError (List Nat) :=
  if s.clock < 0 ∨ g.clocks.length ≤ s.clock.toNat ∨ s.trigger ≠ [1] then
    .error (.runtime "invalid state clock domain/trigger")
  else if (owners ++ s.bits).Nodup then .ok (owners ++ s.bits)
  else .error (.runtime "multiple clock/edge owners for state")

def checkUnclocked (s : State) : Except GraphError Unit :=
  if s.clock ≠ -1 ∨ s.falling then .error (.runtime "unexpected state clock domain") else .ok ()

/-- The clocks and the states they own. -/
def checkContract (g : Graph) : Except GraphError Unit :=
  if g.clockContract = .namedEdges then
    if g.clocks.isEmpty then .error (.runtime "named-edge graph has no clocks")
    else do
      let _ ← g.clocks.foldlM g.checkClock []
      let _ ← g.states.foldlM g.checkState []
  else if g.clocks.isEmpty then g.states.forM checkUnclocked
  else .error (.runtime "clock domains require a named-edge contract")

def validateClocks (g : Graph) : Except GraphError Unit := do
  g.states.forM g.checkReset
  g.memories.forM Memory.check
  g.memoryAccesses.forM g.checkAccess
  let _ ← g.memoryWrites.foldlM g.checkWrite ∅
  g.checkContract

end Graph

/-! ## Writing -/

def natText (n : Nat) : List Char := (toString n).toList

def intText (n : Int) : List Char := (toString n).toList

def flagText (b : Bool) : List Char := natText b.toNat

def valueText (v : Value) : List Char :=
  natText v.length ++ ' ' :: v.flatMap fun bit => natText bit ++ [' ']

def countedText {α : Type} (text : α → List Char) (l : List α) : List Char :=
  natText l.length ++ '\n' :: l.flatMap text

def ClockContract.number : ClockContract → Nat
  | .explicitEvents => 0
  | .risingEdgeStep => 1
  | .namedEdges => 2

def nodeText (n : Node) : List Char :=
  quoted n.op.text ++ ' ' :: (natText n.width ++ ' ' :: (valueText n.left ++
    (valueText n.right ++ (valueText n.select ++ (quoted n.name ++ ['\n'])))))

def aliasText (p : Nat × Nat) : List Char := natText p.1 ++ ' ' :: (natText p.2 ++ ['\n'])

def portText (p : Port) : List Char :=
  quoted p.name ++ ' ' :: (valueText p.bits ++ (flagText p.input ++ ['\n']))

def stateText (s : State) : List Char :=
  valueText s.bits ++ (valueText s.next ++ (valueText s.trigger ++ ['\n']))

def memoryText (m : Memory) : List Char :=
  quoted m.name ++ ' ' :: (natText m.width ++ ' ' :: (natText m.depth ++ ['\n']))

def accessText (a : MemoryAccess) : List Char :=
  natText a.memory ++ ' ' :: (valueText a.address ++ (valueText a.enabled ++
    (flagText a.transaction ++ ['\n'])))

def writeText (w : MemoryWrite) : List Char :=
  natText w.memory ++ ' ' :: (valueText w.address ++ (valueText w.data ++
    (valueText w.enabled ++ ['\n'])))

def clockText (c : Clock) : List Char := quoted c.name ++ ' ' :: (natText c.frequency ++ ['\n'])

def edgeText (clock : Int) (falling : Bool) : List Char :=
  intText clock ++ ' ' :: (flagText falling ++ ['\n'])

def resetText (s : State) : List Char := valueText s.reset ++ (valueText s.resetValue ++ ['\n'])

def attributeText (a : ScopeAttribute) : List Char :=
  quoted a.scope ++ ' ' :: (quoted a.name ++ ' ' :: (quoted a.value ++ ['\n']))

def pinText (p : String × Value) : List Char := quoted p.1 ++ ' ' :: (valueText p.2 ++ ['\n'])

def streamText (p : StreamPipeline) : List Char :=
  quoted p.scope ++ ' ' :: (quoted p.logic ++ ' ' :: (natText p.stages ++ ' ' ::
    (natText p.latency ++ ' ' :: (natText p.generation ++ '\n' ::
      (countedText pinText p.pins.toList ++
        countedText (fun bits => valueText bits ++ ['\n']) p.registers)))))

def romText (p : Memory × Nat) : List Char :=
  natText p.2 ++ ' ' :: (natText p.1.contents.length ++
    (p.1.contents.flatMap (fun word => ' ' :: natText word) ++ ['\n']))

def replacementText (r : PipelineReplacement) : List Char :=
  quoted r.scope ++ ' ' :: (quoted r.module ++ ' ' :: (quoted r.verilog ++ ' ' ::
    (natText r.latency ++ ' ' :: countedText pinText r.pins.toList)))

namespace Graph

def roms (g : Graph) : List (Memory × Nat) :=
  g.memories.zipIdx.filter fun p => !p.1.contents.isEmpty

def logicText (g : Graph) : List Char :=
  countedText nodeText g.nodes.toList ++ (countedText aliasText g.aliases.toList ++
    (countedText portText g.ports ++ countedText stateText g.states))

def memoriesText (g : Graph) : List Char :=
  countedText memoryText g.memories ++ (countedText accessText g.memoryAccesses ++
    countedText writeText g.memoryWrites)

def clocksText (g : Graph) : List Char :=
  "clock_contract".toList ++ ' ' :: (natText g.clockContract.number ++ '\n' ::
    if g.clockContract = .namedEdges then
      countedText clockText g.clocks ++ g.states.flatMap fun s => edgeText s.clock s.falling
    else [])

def eventsText (g : Graph) : List Char :=
  "events_v1".toList ++ '\n' :: (g.states.flatMap resetText ++
    (g.memoryAccesses.flatMap (fun a => edgeText a.clock a.falling) ++
      g.memoryWrites.flatMap fun w => edgeText w.clock w.falling))

def scopesText (g : Graph) : List Char :=
  "scopes_v1".toList ++ '\n' :: (g.nodes.toList.flatMap (fun n => quoted n.scope ++ ['\n']) ++
    countedText attributeText g.attributes)

def streamsText (g : Graph) : List Char :=
  "streams_v1".toList ++ '\n' :: countedText streamText g.pipelines

def romsText (g : Graph) : List Char :=
  "roms_v1".toList ++ ' ' :: countedText romText g.roms

def replacementsText (g : Graph) : List Char :=
  if g.replacements.isEmpty then []
  else "replacements_v1".toList ++ ' ' :: countedText replacementText g.replacements

def save (g : Graph) : List Char :=
  g.logicText ++ (g.memoriesText ++ (g.clocksText ++ (g.eventsText ++ (g.scopesText ++
    (g.streamsText ++ (g.romsText ++ g.replacementsText))))))

end Graph

/-! ## Reading -/

abbrev Reader (α : Type) := Scanner GraphError α

/-- What the stream throws where an extraction fails. -/
def streamFailure : GraphError := .runtime "basic_ios::clear: iostream error"

def readNat : Reader Nat := scanNat streamFailure

def readInt : Reader Int := scanInt streamFailure

def readFlag : Reader Bool := scanBool streamFailure

def readQuoted : Reader String := scanQuoted streamFailure

def readTag : Reader (List Char) := scanWord streamFailure

def readValue : Reader Value := do
  let count ← readNat
  if 1048576 < count then throw (.runtime "graph value too large") else scanMany readNat count

def readCounted {α : Type} (item : Reader α) : Reader (List α) := do
  let count ← readNat
  scanMany item count

def readNode : Reader Node := do
  let op ← readQuoted
  let width ← readNat
  let left ← readValue
  let right ← readValue
  let select ← readValue
  let name ← readQuoted
  pure ⟨Op.ofText op, width, left, right, select, name, ""⟩

def readAlias (aliases : Std.ExtTreeMap Nat Nat) : Reader (Std.ExtTreeMap Nat Nat) := do
  let target ← readNat
  let source ← readNat
  if (aliases[target]?).isSome then throw (.runtime "duplicate graph alias")
  else pure (aliases.insert target source)

def readPort : Reader Port := do
  let name ← readQuoted
  let bits ← readValue
  let input ← readFlag
  pure ⟨name, bits, input⟩

def readState : Reader State := do
  let bits ← readValue
  let next ← readValue
  let trigger ← readValue
  pure { bits, next, trigger }

def readMemory : Reader Memory := do
  let name ← readQuoted
  let width ← readNat
  let depth ← readNat
  pure { name, width, depth }

def readAccess : Reader MemoryAccess := do
  let memory ← readNat
  let address ← readValue
  let enabled ← readValue
  let transaction ← readFlag
  pure { memory, address, enabled, transaction }

def readWrite : Reader MemoryWrite := do
  let memory ← readNat
  let address ← readValue
  let data ← readValue
  let enabled ← readValue
  pure { memory, address, data, enabled }

def readClock : Reader Clock := do
  let name ← readQuoted
  let frequency ← readNat
  pure ⟨name, frequency⟩

def readAttribute : Reader ScopeAttribute := do
  let scope ← readQuoted
  let name ← readQuoted
  let value ← readQuoted
  pure ⟨scope, name, value⟩

def readPin (pins : Std.ExtTreeMap String Value) : Reader (Std.ExtTreeMap String Value) := do
  let name ← readQuoted
  let value ← readValue
  pure (pins.insert name value)

def readStream : Reader StreamPipeline := do
  let scope ← readQuoted
  let logic ← readQuoted
  let stages ← readNat
  let latency ← readNat
  let generation ← readNat
  let size ← readNat
  let pins ← scanInto readPin size ∅
  let registers ← readCounted readValue
  pure { scope, logic, pins, registers, stages, latency, generation }

def readRom (memories : List Memory) : Reader (List Memory) := do
  let identity ← readNat
  let words ← readNat
  match memories[identity]? with
  | none => throw (.runtime "invalid graph ROM contents")
  | some m =>
      if words = 0 ∨ 16777216 < words ∨ !m.contents.isEmpty then
        throw (.runtime "invalid graph ROM contents")
      else do
        let contents ← scanMany readNat words
        pure (memories.set identity { m with contents })

def readReplacement : Reader PipelineReplacement := do
  let scope ← readQuoted
  let module ← readQuoted
  let verilog ← readQuoted
  let latency ← readNat
  let size ← readNat
  if latency = 0 ∨ size ≠ 10 then throw (.runtime "invalid replacement interface")
  else do
    let pins ← scanInto readPin size ∅
    pure { scope, module, verilog, latency, pins }

namespace Graph

def loadLogic (g : Graph) : Reader Graph := do
  let nodes ← readCounted readNode
  let count ← readNat
  let aliases ← scanInto readAlias count g.aliases
  let ports ← readCounted readPort
  let states ← readCounted readState
  pure { g with
    nodes := g.nodes ++ nodes.toArray
    aliases
    ports := g.ports ++ ports
    states := g.states ++ states }

def loadMemories (g : Graph) : Reader Graph := do
  let memories ← readCounted readMemory
  let accesses ← readCounted readAccess
  let writes ← readCounted readWrite
  pure { g with
    memories := g.memories ++ memories
    memoryAccesses := g.memoryAccesses ++ accesses
    memoryWrites := g.memoryWrites ++ writes }

/-- The clocks of a named-edge graph and the edges of its states. -/
def loadNamedClocks (g : Graph) : Reader Graph := do
  let count ← readNat
  if 1024 < count then throw (.runtime "too many graph clocks")
  else do
    let clocks ← scanMany readClock count
    let states ← g.states.mapM fun s => do
      let clock ← readInt
      let falling ← readFlag
      pure { s with clock, falling }
    pure { g with clockContract := .namedEdges, clocks := g.clocks ++ clocks, states }

def loadClocks (g : Graph) : Reader Graph := do
  let tag ← readTag
  let contract ← readNat
  if tag ≠ "clock_contract".toList ∨ 2 < contract then
    throw (.runtime "invalid graph clock contract")
  else if contract = 2 then g.loadNamedClocks
  else pure { g with
    clockContract := if contract = 0 then .explicitEvents else .risingEdgeStep }

def loadEvents (g : Graph) : Reader Graph := do
  let tag ← readTag
  if tag ≠ "events_v1".toList then throw (.runtime "invalid graph event metadata")
  else do
    let states ← g.states.mapM fun s => do
      let reset ← readValue
      let resetValue ← readValue
      pure { s with reset, resetValue }
    let memoryAccesses ← g.memoryAccesses.mapM fun a => do
      let clock ← readInt
      let falling ← readFlag
      pure { a with clock, falling }
    let memoryWrites ← g.memoryWrites.mapM fun w => do
      let clock ← readInt
      let falling ← readFlag
      pure { w with clock, falling }
    pure { g with states, memoryAccesses, memoryWrites }

def loadScopes (g : Graph) : Reader Graph := do
  let tag ← readTag
  if tag ≠ "scopes_v1".toList then throw (.runtime "invalid graph scope metadata")
  else do
    let nodes ← g.nodes.toList.mapM fun n => do
      let scope ← readQuoted
      pure { n with scope }
    let attributes ← readCounted readAttribute
    pure { g with nodes := nodes.toArray, attributes := g.attributes ++ attributes }

def loadStreams (g : Graph) : Reader Graph := do
  let tag ← readTag
  if tag ≠ "streams_v1".toList then throw (.runtime "invalid graph stream metadata")
  else do
    let count ← readNat
    if 1024 < count then throw (.runtime "too many streaming regions")
    else do
      let pipelines ← scanMany readStream count
      pure { g with pipelines := g.pipelines ++ pipelines }

def loadRoms (g : Graph) : Reader Graph := do
  let tag ← readTag
  let count ← readNat
  if tag ≠ "roms_v1".toList ∨ g.memories.length < count then
    throw (.runtime "invalid graph ROM metadata")
  else do
    let memories ← scanInto readRom count g.memories
    pure { g with memories }

def loadReplacements (g : Graph) : Reader Graph := do
  let tag ← readTag
  let count ← readNat
  if tag ≠ "replacements_v1".toList ∨ 65536 < count then
    throw (.runtime "invalid replacement metadata")
  else do
    let replacements ← scanMany readReplacement count
    pure { g with replacements := g.replacements ++ replacements }

def loadValidated (g : Graph) : Reader Graph :=
  match g.validateClocks with
  | .ok _ => pure g
  | .error e => throw e

/-- Read the records of a stream into a graph. Sections newer than the text
are left out; a text without memories is not validated. -/
def loadRecords (g : Graph) : Reader Graph := do
  let g ← g.loadLogic
  if ← scanMore then do
    let g ← g.loadMemories
    let g ← scanSection loadClocks g
    let g ← scanSection loadEvents g
    let g ← scanSection loadScopes g
    let g ← scanSection loadStreams g
    let g ← scanSection loadRoms g
    let g ← scanSection loadReplacements g
    g.loadValidated
  else pure g

def load (g : Graph) (text : List Char) : Except GraphError Graph :=
  match g.loadRecords text with
  | .ok h _ => .ok h
  | .error e _ => .error e

end Graph

end CppHdl
