import Nightfrost.Domain

namespace Nightfrost.FinalizedBlocks

open ByteOrder Domain

abbrev H256 := ByteArr 32

abbrev Authorities := List (ByteArr 32)

inductive DigestItem
  | preRuntime (engineId data : Bytes)
  | other
  deriving DecidableEq

inductive NodeError
  | subscribeFinalizedBlocks
  | receiveBlock
  | getOnlineClientAt (hash : H256)
  | getOnlineClientAtHeight (height : Nat)
  | parentHashMismatch (height : Nat) (expected was : H256)
  | invalidBabePreDigestTag (tag : UInt8)
  | scaleDecode
  deriving DecidableEq

def auraEngineId : Bytes := [97, 117, 114, 97]

def babeEngineId : Bytes := [66, 65, 66, 69]

/-- The SCALE decoding of a fixed-width integer reads its bytes and leaves the rest. -/
def scaleDecode (width : Nat) (bytes : Bytes) : Except NodeError Nat :=
  if bytes.length < width then .error .scaleDecode else .ok (fromLe (bytes.take width))

def decodeSlot (slot : Bytes) : Except NodeError Nat := scaleDecode 8 slot

def decodeBabeAuthorityIndex (preDigest : Bytes) : Except NodeError Nat :=
  match preDigest with
  | [] => .error .scaleDecode
  | tag :: rest =>
      if ¬ (1 ≤ tag ∧ tag ≤ 3) then .error (.invalidBabePreDigestTag tag) else scaleDecode 4 rest

def babeAuthor (preDigest : Bytes) (authorities : Authorities) : Except NodeError (Option H256) := do
  let index ← decodeBabeAuthorityIndex preDigest
  .ok authorities[index]?

def digestAuthor (engineId data : Bytes) (authorities : Authorities) (babeSupported : Bool) :
    Except NodeError (Option H256) :=
  if engineId = auraEngineId then do
    let slot ← decodeSlot data
    .ok authorities[slot % authorities.length]?
  else if engineId = babeEngineId ∧ babeSupported then babeAuthor data authorities
  else .ok none

def firstAuthor (authorities : Authorities) (babeSupported : Bool) :
    List DigestItem → Except NodeError (Option H256)
  | [] => .ok none
  | .other :: logs => firstAuthor authorities babeSupported logs
  | .preRuntime engineId data :: logs => do
      match ← digestAuthor engineId data authorities babeSupported with
      | some author => .ok (some author)
      | none => firstAuthor authorities babeSupported logs

def authorFromDigestLogs (logs : List DigestItem) (authorities : Authorities)
    (babeSupported : Bool) : Except NodeError (Option H256) :=
  if authorities = [] then .ok none else firstAuthor authorities babeSupported logs

/-- What the node serves about a block: what is made of it besides its author,
what its author is derived from, and the authority set in the state after it. -/
structure NodeBlock where
  block : Block
  logs : List DigestItem
  babeSupported : Bool
  newSession : Bool
  authorities : Authorities

def NodeBlock.author (b : NodeBlock) (authorities : Authorities) : Except NodeError (Option H256) :=
  authorFromDigestLogs b.logs authorities b.babeSupported

def makeBlock (authorities : Option Authorities) (b : NodeBlock) :
    Except NodeError (Block × Option Authorities) := do
  let known := authorities.getD b.authorities
  let author ← b.author known
  .ok ({ b.block with author }, if b.newSession then none else some known)

/-- The reads of a node. An error stands for any read of the block that fails. -/
structure Node where
  blockAt : H256 → Except NodeError NodeBlock
  blockAtHeight : Nat → Except NodeError NodeBlock
  genesisHash : H256

inductive Ending (α : Type)
  | done (a : α)
  | failed (e : NodeError)
  | unfinished

structure Yields (α : Type) where
  items : List Block
  ending : Ending α

variable {α β κ : Type}

def Yields.andThen (x : Yields α) (f : α → Yields β) : Yields β :=
  match x.ending with
  | .done a => ⟨x.items ++ (f a).items, (f a).ending⟩
  | .failed e => ⟨x.items, .failed e⟩
  | .unfinished => ⟨x.items, .unfinished⟩

def ofExcept : Except NodeError α → Yields α
  | .ok a => ⟨[], .done a⟩
  | .error e => ⟨[], .failed e⟩

def fetchAndMake (fetch : κ → Except NodeError NodeBlock) (authorities : Option Authorities) (k : κ) :
    Except NodeError (Block × Option Authorities) := do
  let b ← fetch k
  makeBlock authorities b

def makeAll (fetch : κ → Except NodeError NodeBlock) :
    List κ → Option Authorities → Yields (Option Authorities)
  | [], authorities => ⟨[], .done authorities⟩
  | k :: ks, authorities =>
      match fetchAndMake fetch authorities k with
      | .error e => ⟨[], .failed e⟩
      | .ok (made, authorities) =>
          let rest := makeAll fetch ks authorities
          ⟨made :: rest.items, rest.ending⟩

structure Forward where
  height : Nat
  lastForwardHash : Option H256
  authorities : Option Authorities

def fetchChunk (node : Node) (authorities : Option Authorities) (height chunkEnd : Nat) :
    Except NodeError (List (Block × Option Authorities)) :=
  (List.range' height (chunkEnd - height)).mapM (fetchAndMake node.blockAtHeight authorities)

/-- The blocks of a chunk in order, up to the first that carries a session change:
those behind it were made with a stale set. -/
def consumeChunk : List (Block × Option Authorities) → Forward → Yields Forward
  | [], st => ⟨[], .done st⟩
  | (made, chunkAuthorities) :: chunk, st =>
      match st.lastForwardHash.filter (· ≠ made.parentHash) with
      | some expected => ⟨[], .failed (.parentHashMismatch made.height expected made.parentHash)⟩
      | none =>
          if chunkAuthorities.isNone then
            ⟨[made], .done ⟨made.height + 1, some made.hash, none⟩⟩
          else
            let rest := consumeChunk chunk
              ⟨made.height + 1, some made.hash, st.authorities.or chunkAuthorities⟩
            ⟨made :: rest.items, rest.ending⟩

def catchUpChunk : Nat := 32

def finalizationSafetyMargin : Nat := 400

def forward (node : Node) (chunk safeHeight : Nat) : Nat → Forward → Yields Forward
  | 0, st => if st.height < safeHeight then ⟨[], .unfinished⟩ else ⟨[], .done st⟩
  | fuel + 1, st =>
      if st.height < safeHeight then
        let chunkEnd := min (st.height + chunk) safeHeight
        (ofExcept (fetchChunk node st.authorities st.height chunkEnd)).andThen fun made =>
          (consumeChunk made st).andThen (forward node chunk safeHeight fuel)
      else ⟨[], .done st⟩

/-- The hashes from a parent back to the stop hash, or to the parent of genesis. -/
def backward (node : Node) (stopHash genesisParentHash : H256) : Nat → H256 → List H256 →
    Ending (List H256)
  | 0, parentHash, hashes =>
      if parentHash ≠ stopHash ∧ parentHash ≠ genesisParentHash then .unfinished else .done hashes
  | fuel + 1, parentHash, hashes =>
      if parentHash ≠ stopHash ∧ parentHash ≠ genesisParentHash then
        match node.blockAt parentHash with
        | .error e => .failed e
        | .ok parent =>
            backward node stopHash genesisParentHash fuel parent.block.parentHash
              (hashes ++ [parent.block.hash])
      else .done hashes

structure Head where
  hash : H256
  height : Nat
  parentHash : H256

/-- The blocks between the resume point and the first finalized block, and that
block itself. -/
def catchUp (node : Node) (chunk margin fuel : Nat) (after : Option BlockRef) (first : Head) :
    Yields (Option Authorities) :=
  let afterHash := (after.map BlockRef.hash).getD (.filled 32 0)
  if first.hash = afterHash then ⟨[], .done none⟩
  else
    let startHeight := (after.map (fun a => a.height + 1)).getD 0
    let safeHeight := max (first.height - margin) startHeight
    (forward node chunk safeHeight fuel ⟨startHeight, after.map (fun _ => afterHash), none⟩).andThen
      fun st =>
        let stopHash := st.lastForwardHash.getD afterHash
        (ofExcept (node.blockAt node.genesisHash)).andThen fun genesis =>
          (⟨[], backward node stopHash genesis.block.parentHash fuel first.parentHash []⟩ :
            Yields (List H256)).andThen fun hashes =>
              (makeAll node.blockAt hashes.reverse st.authorities).andThen fun authorities =>
                makeAll node.blockAt [first.hash] authorities

/-- What a subscription delivers. A reconnect error is followed by further heads. -/
inductive Event
  | head (h : Head)
  | disconnected
  | error (e : NodeError)
  | ended
  | timeout

def duplicate (lastHeight : Option Nat) (height : Nat) : Bool :=
  lastHeight.any (fun last => height ≤ last)

/-- The first head that is no duplicate, with the events behind it. The wait for
it has no timeout. -/
def receiveFirst (lastHeight : Option Nat) : List Event → Yields (Option (Head × List Event))
  | [] => ⟨[], .unfinished⟩
  | .head h :: events =>
      if duplicate lastHeight h.height then receiveFirst lastHeight events
      else ⟨[], .done (some (h, events))⟩
  | .disconnected :: events => receiveFirst lastHeight events
  | .error e :: _ => ⟨[], .failed e⟩
  | .ended :: _ => ⟨[], .done none⟩
  | .timeout :: events => receiveFirst lastHeight events

/-- The loop over the heads behind the first. A timeout subscribes anew, and the
new filter starts at the last block yielded. -/
def followHeads (node : Node) : List Event → Option Nat → Option Nat → Option Authorities →
    Yields Unit
  | [], _, _, _ => ⟨[], .unfinished⟩
  | .head h :: events, lastHeight, lastYieldedHeight, authorities =>
      if duplicate lastHeight h.height then
        followHeads node events lastHeight lastYieldedHeight authorities
      else
        match fetchAndMake node.blockAt authorities h.hash with
        | .error e => ⟨[], .failed e⟩
        | .ok (made, authorities) =>
            let rest := followHeads node events (some h.height) (some made.height) authorities
            ⟨made :: rest.items, rest.ending⟩
  | .disconnected :: events, lastHeight, lastYieldedHeight, authorities =>
      followHeads node events lastHeight lastYieldedHeight authorities
  | .error e :: _, _, _, _ => ⟨[], .failed e⟩
  | .ended :: _, _, _, _ => ⟨[], .done ()⟩
  | .timeout :: events, _, lastYieldedHeight, authorities =>
      followHeads node events lastYieldedHeight lastYieldedHeight authorities

def finalizedBlocks (node : Node) (chunk margin fuel : Nat) (after : Option BlockRef)
    (events : List Event) : Yields Unit :=
  (receiveFirst (after.map BlockRef.height) events).andThen fun first =>
    match first with
    | none => ⟨[], .done ()⟩
    | some (first, events) =>
        let caughtUp := catchUp node chunk margin fuel after first
        caughtUp.andThen fun authorities =>
          followHeads node events (some first.height)
            ((caughtUp.items.getLast?.map Block.height).or (after.map BlockRef.height)) authorities

structure Session where
  node : Node
  fuel : Nat
  events : List Event

def blockRef (block : Block) : BlockRef := ⟨block.hash, block.height⟩

/-- The blocks of a stream up to the first whose parent is not the highest block,
with the highest block behind them. -/
def acceptLinked : Option BlockRef → List Block → List Block × Option BlockRef × Bool
  | highest, [] => ([], highest, true)
  | highest, block :: blocks =>
      if block.parentHash ≠ (highest.map BlockRef.hash).getD (.filled 32 0) then ([], highest, false)
      else
        let (rest, highest, complete) := acceptLinked (some (blockRef block)) blocks
        (block :: rest, highest, complete)

def nodeBlocks (chunk margin : Nat) : List Session → Option BlockRef → List (Except NodeError Block)
  | [], _ => []
  | session :: sessions, highestBlock =>
      let stream := finalizedBlocks session.node chunk margin session.fuel highestBlock session.events
      let (accepted, highestBlock, complete) := acceptLinked highestBlock stream.items
      let items := accepted.map Except.ok
      if complete then
        match stream.ending with
        | .done _ => items ++ nodeBlocks chunk margin sessions highestBlock
        | .failed e => items ++ .error e :: nodeBlocks chunk margin sessions highestBlock
        | .unfinished => items
      else items ++ nodeBlocks chunk margin sessions highestBlock

end Nightfrost.FinalizedBlocks
