import WorkflowRecipes.Text.Hex

/-!
# Digests

`Digest.ofBytes` is the BLAKE3 hash of a run of octets. The octets are cut into chunks of 1024 and
these into blocks of 64. Each chunk is pressed into a node block by block, and adjacent nodes are
joined level by level until one is left.
-/

namespace WorkflowRecipes.Digest

/-- Eight words that carry the hash of what came before. -/
abbrev Chain := Vector UInt32 8

/-- Sixteen words: a block, or the state while a block is mixed in. -/
abbrev Block := Vector UInt32 16

/-- The words that every hash starts with. -/
def start : Chain :=
  #v[0x6A09E667, 0xBB67AE85, 0x3C6EF372, 0xA54FF53A, 0x510E527F, 0x9B05688C, 0x1F83D9AB, 0x5BE0CD19]

/-- The places from which the words of a block are taken after each round. -/
def places : Vector (Fin 16) 16 := #v[2, 6, 3, 10, 7, 0, 4, 13, 1, 11, 12, 5, 9, 14, 15, 8]

/-- The flag of the first block of a chunk. -/
def chunkStart : UInt32 := 1

/-- The flag of the last block of a chunk. -/
def chunkEnd : UInt32 := 2

/-- The flag of a pair of nodes. -/
def pair : UInt32 := 4

/-- The flag of the top of the tree. -/
def top : UInt32 := 8

/-- A word turned to the right by a number of bits. -/
def turn (word bits : UInt32) : UInt32 := (word >>> bits) ||| (word <<< (32 - bits))

/-- Mix two words of a block into four of the state. -/
def mix (state : Block) (a b c d : Fin 16) (x y : UInt32) : Block :=
  let p := state[a] + state[b] + x
  let s := turn (state[d] ^^^ p) 16
  let r := state[c] + s
  let q := turn (state[b] ^^^ r) 12
  let p := p + q + y
  let s := turn (s ^^^ p) 8
  let r := r + s
  let q := turn (q ^^^ r) 7
  (((state.set a p).set b q).set c r).set d s

/-- Mix a block into the state once: the columns, then the diagonals. -/
def round (state block : Block) : Block :=
  let state := mix state 0 4 8 12 block[0] block[1]
  let state := mix state 1 5 9 13 block[2] block[3]
  let state := mix state 2 6 10 14 block[4] block[5]
  let state := mix state 3 7 11 15 block[6] block[7]
  let state := mix state 0 5 10 15 block[8] block[9]
  let state := mix state 1 6 11 12 block[10] block[11]
  let state := mix state 2 7 8 13 block[12] block[13]
  mix state 3 4 9 14 block[14] block[15]

/-- Mix a block into the state a number of times, with its words in another order each time. -/
def rounds : Nat → Block → Block → Block
  | 0, state, _ => state
  | count + 1, state, block => rounds count (round state block) (places.map fun i => block[i])

/-- A node of the tree whose last block is not mixed in yet. -/
structure Node where
  chain : Chain
  block : Block
  /-- How many chunks came before. -/
  position : UInt64
  /-- How many octets of the block count. -/
  length : UInt32
  flags : UInt32

/-- The words of a node. -/
def Node.words (node : Node) : Chain :=
  let chain := node.chain
  let state : Block :=
    #v[chain[0], chain[1], chain[2], chain[3], chain[4], chain[5], chain[6], chain[7],
      start[0], start[1], start[2], start[3],
      node.position.toUInt32, (node.position >>> 32).toUInt32, node.length, node.flags]
  let mixed := rounds 7 state node.block
  Vector.ofFn fun (i : Fin 8) => mixed[i] ^^^ mixed[i.val + 8]

/-- The word of four octets, the lowest first. -/
def word (octets : List UInt8) : UInt32 :=
  octets.foldr (fun octet n => n <<< 8 ||| octet.toUInt32) 0

/-- The block of at most 64 octets, filled up with zeros. -/
def block (octets : List UInt8) : Block :=
  Vector.ofFn fun i => word ((octets.drop (4 * i.val)).take 4)

/-- Cut a list into pieces of a length, of which the last may be shorter. The first argument bounds
the number of pieces. -/
def cut {α : Type} (length : Nat) : Nat → List α → List (List α)
  | 0, _ => []
  | bound + 1, items =>
    if items.isEmpty then [] else items.take length :: cut length bound (items.drop length)

/-- The node of a chunk, given as its blocks. `flags` are those of the first block. -/
def chunkNode (position : UInt64) (chain : Chain) (flags : UInt32) : List (List UInt8) → Node
  | [] => ⟨chain, block [], position, 0, flags ||| chunkEnd⟩
  | [last] => ⟨chain, block last, position, last.length.toUInt32, flags ||| chunkEnd⟩
  | octets :: rest =>
    let node : Node := ⟨chain, block octets, position, octets.length.toUInt32, flags⟩
    chunkNode position node.words 0 rest

/-- The nodes of chunks, `position` of which stand before. -/
def chunkNodes (position : Nat) : List (List UInt8) → List Node
  | [] => []
  | chunk :: rest =>
    chunkNode position.toUInt64 start chunkStart (cut 64 chunk.length chunk) ::
      chunkNodes (position + 1) rest

/-- The node over two nodes. -/
def join (left right : Node) : Node := ⟨start, left.words ++ right.words, 0, 64, pair⟩

/-- Join adjacent nodes; the last of an odd number stays alone. -/
def joinAdjacent : List Node → List Node
  | left :: right :: rest => join left right :: joinAdjacent rest
  | rest => rest

theorem length_joinAdjacent_le (nodes : List Node) :
    (joinAdjacent nodes).length ≤ nodes.length := by
  fun_induction joinAdjacent nodes with
  | case1 left right rest ih => simp only [List.length_cons]; omega
  | case2 => exact Nat.le_refl _

/-- The node at the top of the tree. -/
def topNode (first : Node) : List Node → Node
  | [] => first
  | second :: rest => topNode (join first second) (joinAdjacent rest)
termination_by rest => rest.length
decreasing_by
  have := length_joinAdjacent_le rest
  simp only [List.length_cons]
  omega

/-- The octets of a word, the lowest first. -/
def octets (word : UInt32) : List Nat :=
  [word, word >>> 8, word >>> 16, word >>> 24].map fun w => w.toNat % 256

/-- The hash of octets as text. -/
def ofBytes (bytes : List UInt8) : String :=
  let node := match chunkNodes 0 (cut 1024 bytes.length bytes) with
    | [] => chunkNode 0 start chunkStart []
    | first :: rest => topNode first rest
  let words := { node with position := 0, flags := node.flags ||| top }.words
  "blake3:" ++ String.ofList (words.toList.flatMap fun w => (octets w).flatMap (Text.hexText 2))

/-- The hash of a text. -/
def ofText (text : String) : String := ofBytes text.toUTF8.toList

end WorkflowRecipes.Digest
