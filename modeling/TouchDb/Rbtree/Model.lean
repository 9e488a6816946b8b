import TouchDb.Heap.Model
import Mathlib.Data.List.Lex
import Mathlib.Order.Lattice

/-! `touchdb_rbtree.c`: a red-black tree of nodes in a pool, linked by offsets. The global
`touchdb_pool` is the first pool. -/
namespace TouchDb
open Layout

/-- `touchdb_rbtree_node_color_t`; memory may also hold a number that names no color. -/
inductive TouchdbRbtreeNodeColor where
  | red | black
  | other (w : UInt32) (h : 2 ≤ w.toNat)
  deriving DecidableEq

namespace TouchdbRbtreeNodeColor

def toWord : TouchdbRbtreeNodeColor → UInt32
  | red => 0
  | black => 1
  | other w _ => w

def ofWord (w : UInt32) : TouchdbRbtreeNodeColor :=
  if w = 0 then red else if w = 1 then black else if h : 2 ≤ w.toNat then other w h else red

theorem ofWord_toWord (c : TouchdbRbtreeNodeColor) : ofWord c.toWord = c := by
  cases c with
  | other w h =>
    have hne (k : UInt32) (hk : k.toNat < 2) : w ≠ k := by
      rintro rfl
      omega
    change ofWord w = other w h
    unfold ofWord
    rw [if_neg (hne 0 (by decide)), if_neg (hne 1 (by decide)), dif_pos h]
  | _ => rfl

end TouchdbRbtreeNodeColor

instance : Layout TouchdbRbtreeNodeColor :=
  .transfer TouchdbRbtreeNodeColor.toWord TouchdbRbtreeNodeColor.ofWord
    TouchdbRbtreeNodeColor.ofWord_toWord

@[simp] theorem size_nodeColor : size TouchdbRbtreeNodeColor = 4 := rfl

/-! `touchdb_rbtree_node_t` -/
namespace RbtreeNode
abbrev leftOffset : Field PtrOffset := ⟨0⟩
abbrev rightOffset : Field PtrOffset := ⟨4⟩
abbrev parentOffset : Field PtrOffset := ⟨8⟩
abbrev color : Field TouchdbRbtreeNodeColor := ⟨12⟩
abbrev keyOffset : Field PtrOffset := ⟨16⟩
abbrev val : Field TouchdbVal := ⟨20⟩
end RbtreeNode

def sizeofRbtreeNode : ℕ := 32

/-- `touchdb_rbtree_t`, without `size`, which no function here touches. -/
structure TouchdbRbtree where
  rootOffset : PtrOffset

/-- A process and one tree record. -/
structure RbStore where
  db : Touchdb
  tree : TouchdbRbtree

/-- What a tree function does to the nodes: it reads or writes a field of the node at `p`, or
gives the node at `p` back to the pool. -/
inductive RbEvent where
  | access (p : ℕ)
  | release (p : ℕ)
  deriving DecidableEq

abbrev RbM := Prog Stop RbEvent RbStore

/-- A call of the pool. -/
def onPool {α : Type} (c : M α) : RbM α := fun s =>
  match c s.db with
  | .error (e, _) => .error (e, [])
  | .ok (a, db, _) => .ok (a, { s with db := db }, [])

def emit (e : RbEvent) : RbM Unit := .update id fun _ => [e]

section Fields
variable {α : Type} [Layout α]

def getField (n : ℕ) (f : Field α) : RbM α := do
  emit (.access n)
  onPool (load n f)

def setField (n : ℕ) (f : Field α) (v : α) : RbM Unit := do
  emit (.access n)
  onPool (store n f v)

end Fields

def getRoot : RbM PtrOffset := fun s => .ok (s.tree.rootOffset, s, [])

def setRoot (offset : PtrOffset) : RbM Unit :=
  .update (fun s => { s with tree := ⟨offset⟩ }) fun _ => []

/-- The order of strings as `strcmp` sees them, by their characters as unsigned numbers. -/
instance : LinearOrder CStr :=
  LinearOrder.lift' (fun s => s.chars.map UInt8.toNat) fun _ _ h =>
    CStr.ext_chars (List.map_injective_iff.mpr (fun _ _ => UInt8.toNat_inj.mp) h)

/-- `strcmp`: of the result, C promises the sign. -/
structure Strcmp where
  cmp : CStr → CStr → ℤ
  pos_iff : ∀ a b, 0 < cmp a b ↔ b < a
  neg_iff : ∀ a b, cmp a b < 0 ↔ a < b

/-- `strcmp(k, key)` for the key whose offset is given. -/
def strcmpKey (strcmp : Strcmp) (k : CStr) (keyOffset : PtrOffset) : RbM ℤ := do
  let p ← onPool (ptrOf 0 keyOffset)
  let key ← onPool (readStr touchdbDefaultPoolSize p)
  return strcmp.cmp k key

/-- The pointer for a stored offset of the node `n`. -/
def relative (n : ℕ) (f : Field PtrOffset) : RbM ℕ := do
  if n = NULL then return NULL
  else
    let offset ← getField n f
    if offset = NIL then return NULL
    else onPool (ptrOf 0 offset)

def leftNode (n : ℕ) : RbM ℕ := relative n RbtreeNode.leftOffset

def rightNode (n : ℕ) : RbM ℕ := relative n RbtreeNode.rightOffset

def parentNode (n : ℕ) : RbM ℕ := relative n RbtreeNode.parentOffset

def rbtreeNode (offset : PtrOffset) : RbM ℕ := do
  if offset = NIL then return NULL
  else onPool (ptrOf 0 offset)

def rootNode : RbM ℕ := do
  let offset ← getRoot
  rbtreeNode offset

def offsetOf (p : ℕ) : RbM PtrOffset := onPool (ptrOffsetOf 0 p)

/-- The loop of `get_node`, cut off after some rounds: the node found, and `*parent`. -/
def getNodeLoop (strcmp : Strcmp) (k : CStr) : ℕ → ℕ → ℕ → RbM (ℕ × ℕ)
  | 0, _, _ => .stop .diverge
  | rounds + 1, n, parent => do
    if n ≠ NULL then
      let keyOffset ← getField n RbtreeNode.keyOffset
      let r ← strcmpKey strcmp k keyOffset
      if r > 0 then
        let next ← rightNode n
        getNodeLoop strcmp k rounds next n
      else if r < 0 then
        let next ← leftNode n
        getNodeLoop strcmp k rounds next n
      else return (n, n)
    else return (NULL, parent)

def getNode (strcmp : Strcmp) (k : CStr) (parent : ℕ) : RbM (ℕ × ℕ) := do
  let n ← rootNode
  getNodeLoop strcmp k walkRounds n parent

/-- The parent of `n` now points to another node in its place. -/
def replaceChild (parent : ℕ) (nOffset offset : PtrOffset) : RbM Unit := do
  if parent ≠ NULL then
    let r ← getField parent RbtreeNode.rightOffset
    if r = nOffset then setField parent RbtreeNode.rightOffset offset
    else setField parent RbtreeNode.leftOffset offset
  else setRoot offset

def leftRotate (n : ℕ) : RbM Unit := do
  let right ← rightNode n
  if right ≠ NULL then
    let nOffset ← offsetOf n
    let rightOffset ← offsetOf right
    let x ← getField right RbtreeNode.leftOffset
    setField n RbtreeNode.rightOffset x
    (if x ≠ NIL then do
      let l ← leftNode right
      setField l RbtreeNode.parentOffset nOffset
    else return ())
    setField right RbtreeNode.leftOffset nOffset
    let x ← getField n RbtreeNode.parentOffset
    setField right RbtreeNode.parentOffset x
    let parent ← parentNode n
    replaceChild parent nOffset rightOffset
    setField n RbtreeNode.parentOffset rightOffset
  else return ()

/-- The first assignment stores a field to itself. The offsets are kept in variables of type
`int`, which changes no bit of them. -/
def rightRotate (n : ℕ) : RbM Unit := do
  let left ← leftNode n
  if left ≠ NULL then
    let nOffset ← offsetOf n
    let leftOffset ← offsetOf left
    let x ← getField left RbtreeNode.rightOffset
    setField left RbtreeNode.rightOffset x
    (if x ≠ NIL then do
      let r ← rightNode left
      setField r RbtreeNode.parentOffset nOffset
    else return ())
    setField left RbtreeNode.rightOffset nOffset
    let x ← getField n RbtreeNode.parentOffset
    setField left RbtreeNode.parentOffset x
    let _ ← parentNode n
    let parent ← parentNode n
    replaceChild parent nOffset leftOffset
    setField n RbtreeNode.parentOffset leftOffset
  else return ()

/-- `p && p->color == RED` -/
def isRed (p : ℕ) : RbM Bool := do
  if p ≠ NULL then
    let c ← getField p RbtreeNode.color
    return decide (c = .red)
  else return false

/-- `!p || p->color == BLACK` -/
def isBlack (p : ℕ) : RbM Bool := do
  if p ≠ NULL then
    let c ← getField p RbtreeNode.color
    return decide (c = .black)
  else return true

/-- The loop of `insert_fixup`, cut off after some rounds. -/
def insertFixupLoop : ℕ → ℕ → RbM Unit
  | 0, _ => .stop .diverge
  | rounds + 1, n => do
    let parent ← parentNode n
    let red ← isRed parent
    if red then
      let gparent ← parentNode parent
      let onLeft ← (if gparent ≠ NULL then do
        let l ← leftNode gparent
        return decide (parent = l)
      else return false)
      if onLeft then
        let uncle ← rightNode gparent
        let redUncle ← isRed uncle
        if redUncle then
          setField parent RbtreeNode.color .black
          setField uncle RbtreeNode.color .black
          setField gparent RbtreeNode.color .red
          insertFixupLoop rounds gparent
        else
          let r ← rightNode parent
          let (n, parent) ← (if n = r then do
            leftRotate parent
            return (parent, n)
          else return (n, parent))
          setField parent RbtreeNode.color .black
          setField gparent RbtreeNode.color .red
          rightRotate gparent
          insertFixupLoop rounds n
      else
        let uncle ← leftNode gparent
        let redUncle ← isRed uncle
        if redUncle then
          setField uncle RbtreeNode.color .black
          setField parent RbtreeNode.color .black
          setField gparent RbtreeNode.color .red
          insertFixupLoop rounds gparent
        else
          let l ← leftNode parent
          let (n, parent) ← (if n = l then do
            rightRotate parent
            return (parent, n)
          else return (n, parent))
          setField parent RbtreeNode.color .black
          setField gparent RbtreeNode.color .black
          leftRotate gparent
          insertFixupLoop rounds n
    else return ()

def insertFixup (n : ℕ) : RbM Unit := do
  insertFixupLoop walkRounds n
  let root ← rootNode
  setField root RbtreeNode.color .black

/-- The loop of `del_fixup`, cut off after some rounds: the node that it ends at. -/
def delFixupLoop : ℕ → ℕ → ℕ → RbM ℕ
  | 0, _, _ => .stop .diverge
  | rounds + 1, parent, node => do
    let black ← isBlack node
    let go ← (if black then do
      let root ← rootNode
      return decide (node ≠ root)
    else return false)
    if go then
      let l ← leftNode parent
      if l = node then
        let other ← rightNode parent
        let c ← getField other RbtreeNode.color
        let other ← (if c = .red then do
          setField other RbtreeNode.color .black
          setField parent RbtreeNode.color .red
          leftRotate parent
          rightNode parent
        else return other)
        let near ← leftNode other
        let nearBlack ← isBlack near
        let both ← (if nearBlack then do
          let far ← rightNode other
          isBlack far
        else return false)
        if both then
          setField other RbtreeNode.color .red
          let up ← parentNode parent
          delFixupLoop rounds up parent
        else
          let far ← rightNode other
          let farBlack ← isBlack far
          let other ← (if farBlack then do
            let oLeft ← leftNode other
            (if oLeft ≠ NULL then setField oLeft RbtreeNode.color .black else return ())
            setField other RbtreeNode.color .black
            rightRotate other
            rightNode parent
          else return other)
          let c ← getField parent RbtreeNode.color
          setField other RbtreeNode.color c
          setField parent RbtreeNode.color .black
          let x ← getField other RbtreeNode.rightOffset
          (if x ≠ NIL then do
            let r ← rightNode other
            setField r RbtreeNode.color .black
          else return ())
          leftRotate parent
          rootNode
      else
        let other ← leftNode parent
        let c ← getField other RbtreeNode.color
        let other ← (if c = .red then do
          setField other RbtreeNode.color .black
          setField parent RbtreeNode.color .red
          rightRotate parent
          leftNode parent
        else return other)
        let far ← leftNode other
        let farBlack ← isBlack far
        let both ← (if farBlack then do
          let near ← rightNode other
          isBlack near
        else return false)
        if both then
          setField other RbtreeNode.color .red
          let up ← parentNode parent
          delFixupLoop rounds up parent
        else
          let far ← leftNode other
          let farBlack ← isBlack far
          let other ← (if farBlack then do
            let oRight ← rightNode other
            (if oRight ≠ NULL then setField oRight RbtreeNode.color .black else return ())
            setField other RbtreeNode.color .black
            leftRotate other
            leftNode parent
          else return other)
          let c ← getField parent RbtreeNode.color
          setField other RbtreeNode.color c
          setField parent RbtreeNode.color .black
          let x ← getField other RbtreeNode.leftOffset
          (if x ≠ NIL then do
            let l ← leftNode other
            setField l RbtreeNode.color .black
          else return ())
          rightRotate parent
          rootNode
    else return node

def delFixup (parent node : ℕ) : RbM Unit := do
  let node ← delFixupLoop walkRounds parent node
  if node ≠ NULL then setField node RbtreeNode.color .black
  else return ()

/-- `touchdb_rbtree_insert` for a new key, before `insert_fixup`: the new node joins `parent`.
Its `key_offset` is left as the pool hands it out, and so are its links and its color where it
becomes the root. -/
def rbtreeAttach (strcmp : Strcmp) (k : CStr) (n parent : ℕ) : RbM Unit := do
  let nOffset ← offsetOf n
  let parentOffset ← offsetOf parent
  setField n RbtreeNode.parentOffset parentOffset
  if parent = NULL then setRoot nOffset
  else
    let keyOffset ← getField parent RbtreeNode.keyOffset
    let r ← strcmpKey strcmp k keyOffset
    (if r > 1 then setField parent RbtreeNode.rightOffset nOffset
    else setField parent RbtreeNode.leftOffset nOffset)
    setField n RbtreeNode.rightOffset NIL
    setField n RbtreeNode.leftOffset NIL
    setField n RbtreeNode.color .red

def touchdbRbtreeInsert (strcmp : Strcmp) (k : CStr) (v : TouchdbVal) : RbM Unit := do
  let (n, parent) ← getNode strcmp k NULL
  if n ≠ NULL then setField n RbtreeNode.val v
  else
    let n ← onPool (touchdbPoolMalloc 0 (UInt32.ofNat sizeofRbtreeNode))
    setField n RbtreeNode.val v
    rbtreeAttach strcmp k n parent
    insertFixup n

/-- `while((left = left_node(n)) != NULL) n = left;`, cut off after some rounds. -/
def leftmost : ℕ → ℕ → RbM ℕ
  | 0, _ => .stop .diverge
  | rounds + 1, n => do
    let left ← leftNode n
    if left ≠ NULL then leftmost rounds left
    else return n

/-- `child` takes the place of `n` below `parent`. -/
def promote (n parent child : ℕ) : RbM Unit := do
  (if child ≠ NULL then do
    let offset ← offsetOf parent
    setField child RbtreeNode.parentOffset offset
  else return ())
  if parent ≠ NULL then
    let l ← leftNode parent
    let offset ← offsetOf child
    if l = n then setField parent RbtreeNode.leftOffset offset
    else setField parent RbtreeNode.rightOffset offset
  else
    let offset ← offsetOf child
    setRoot offset

/-- `touchdb_rbtree_del` for a node with two children: its successor takes its place. The
result is `parent`, `child` and `color`. -/
def unlinkTwo (old : ℕ) : RbM (ℕ × ℕ × TouchdbRbtreeNodeColor) := do
  let n ← rightNode old
  let n ← leftmost walkRounds n
  let child ← rightNode n
  let parent ← parentNode n
  let color ← getField n RbtreeNode.color
  promote n parent child
  let x ← getField old RbtreeNode.parentOffset
  setField n RbtreeNode.parentOffset x
  let x ← getField old RbtreeNode.leftOffset
  setField n RbtreeNode.leftOffset x
  let x ← getField old RbtreeNode.rightOffset
  setField n RbtreeNode.rightOffset x
  let c ← getField old RbtreeNode.color
  setField n RbtreeNode.color c
  let nOffset ← offsetOf n
  let x ← getField old RbtreeNode.parentOffset
  (if x ≠ NIL then do
    let p ← parentNode old
    let l ← leftNode p
    let p ← parentNode old
    if l = old then setField p RbtreeNode.leftOffset nOffset
    else setField p RbtreeNode.rightOffset nOffset
  else setRoot nOffset)
  let l ← leftNode old
  setField l RbtreeNode.parentOffset nOffset
  let x ← getField old RbtreeNode.rightOffset
  (if x ≠ NIL then do
    let r ← rightNode old
    setField r RbtreeNode.parentOffset nOffset
  else return ())
  return (parent, child, color)

/-- `touchdb_rbtree_del` for a node with one child at most. -/
def unlinkOne (n : ℕ) : RbM (ℕ × ℕ × TouchdbRbtreeNodeColor) := do
  let left ← getField n RbtreeNode.leftOffset
  let child ← (if left = NIL then rightNode n
  else do
    let right ← getField n RbtreeNode.rightOffset
    -- otherwise `child` keeps no value; a node with two children does not come here
    if right = NIL then leftNode n else .stop .fault)
  let parent ← parentNode n
  let color ← getField n RbtreeNode.color
  promote n parent child
  return (parent, child, color)

def unlinkNode (old : ℕ) : RbM (ℕ × ℕ × TouchdbRbtreeNodeColor) := do
  let left ← getField old RbtreeNode.leftOffset
  let two ← (if left ≠ NIL then do
    let right ← getField old RbtreeNode.rightOffset
    return decide (right ≠ NIL)
  else return false)
  if two then unlinkTwo old else unlinkOne old

def touchdbRbtreeDel (strcmp : Strcmp) (k : CStr) : RbM Unit := do
  let (old, _) ← getNode strcmp k NULL
  if old = NULL then return ()
  else
    let (parent, child, color) ← unlinkNode old
    emit (.release old)
    onPool (touchdbPoolFree 0 old)
    if color = .black then delFixup parent child
    else return ()

end TouchDb
