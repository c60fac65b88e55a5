import Fiss.Schemes.Codec
import Fiss.Schemes.Dict

/-! The dependency graph in a message (`Graph::ToMarshal` and `FromMarshal` of `rcc/graph.h`, the
    operators for `RccDTxn` of `rcc/dtxn.h`). The stream is the one of the rrr library, a queue of
    bytes with encoders for integers and sets that their decoders undo (`Encoders`). Of a
    transaction's record only what the operators write is kept. -/

namespace Fiss.Rcc
open List Dict

/-- The encoders of `Marshal` that a graph goes through. -/
structure Encoders where
  u64 : Codec UInt64
  u32 : Codec UInt32
  i8 : Codec UInt8
  set32 : Codec (Finset UInt32)
  set64 : Codec (Finset UInt64)

/-- What `operator<<` writes of an `RccDTxn`. The status is a mask of bits. -/
structure DTxnRecord where
  tid : UInt64
  status : UInt8
  partition : Finset UInt32
  epoch : UInt32
  parents : Finset UInt64
  deriving DecidableEq

namespace DTxnRecord

/-- `RccDTxn(txnid_t id)`: unknown, in epoch 0. -/
def new (id : UInt64) : DTxnRecord := ⟨id, 0, ∅, 0, ∅⟩

def unionStatus (ti : DTxnRecord) (status : UInt8) : DTxnRecord :=
  { ti with status := ti.status ||| status }

/-- `operator<<`. -/
def put (E : Encoders) (ti : DTxnRecord) : List UInt8 :=
  E.u64.put ti.tid ++ E.i8.put ti.status ++ E.set32.put ti.partition ++ E.u32.put ti.epoch ++
    E.set64.put ti.parents

/-- `operator>>`, into a record that exists. -/
def get (E : Encoders) (ti : DTxnRecord) : Reader DTxnRecord := fun m => do
  let (tid, m) ← E.u64.get m
  let (status, m) ← E.i8.get m
  let (partition, m) ← E.set32.get m
  let (epoch, m) ← E.u32.get m
  let (parents, m) ← E.set64.get m
  some ({ ti with tid, partition, epoch, parents }.unionStatus status, m)

theorem get_put (E : Encoders) (ti : DTxnRecord) (id : UInt64) (rest : List UInt8) :
    get E (new id) (ti.put E ++ rest) = some (ti, rest) := by
  simp only [get, put, append_assoc, Codec.get_put, Option.bind_eq_bind, Option.bind_some]
  simp [unionStatus, new]

end DTxnRecord

abbrev VertexIndex := Dict UInt64 DTxnRecord

/-- A graph: each vertex is indexed by its own id. -/
structure RccGraph where
  vertexIndex : VertexIndex
  nodup : vertexIndex.keys.Nodup
  keyed : ∀ e ∈ vertexIndex.entries, e.2.tid = e.1

def VertexIndex.size (ix : VertexIndex) : ℕ := ix.entries.length

/-- What the loop of `ToMarshal` writes of an entry of the index. -/
def putVertex (E : Encoders) (e : UInt64 × DTxnRecord) : List UInt8 :=
  E.u64.put e.2.tid ++ e.2.put E

def toMarshal (E : Encoders) (ix : VertexIndex) : Option (List UInt8) :=
  if ix.size < 10000 then
    some (E.u64.put (.ofNat ix.size) ++ ix.entries.flatMap (putVertex E))
  else none

/-- What the loop of `FromMarshal` reads for `ref`. -/
def getVertex (E : Encoders) : Reader (UInt64 × DTxnRecord) := fun m => do
  let (vId, m) ← E.u64.get m
  let (v, m) ← DTxnRecord.get E (.new vId) m
  some ((vId, v), m)

/-- `FromMarshal`, into the graph with this index. -/
def fromMarshal (E : Encoders) (ix : VertexIndex) : Reader VertexIndex := fun m => do
  guard (ix.size = 0)
  let (n, m) ← E.u64.get m
  guard (n.toNat < 10000)
  let (ref, m) ← Codec.readLoop (getVertex E) (fun ref e => some (ref.set e.1 e.2)) n.toNat
    empty m
  guard (VertexIndex.size ref = n.toNat)
  some (ref.entries.foldl (fun ix e => ix.set e.1 e.2) ix, m)

theorem getVertex_put (E : Encoders) {e : UInt64 × DTxnRecord} (he : e.2.tid = e.1)
    (rest : List UInt8) : getVertex E (putVertex E e ++ rest) = some (e, rest) := by
  simp only [getVertex, putVertex, append_assoc, Codec.get_put, DTxnRecord.get_put,
    Option.bind_eq_bind, Option.bind_some]
  rw [he]

theorem foldl_set_entries (g : RccGraph) :
    g.vertexIndex.entries.foldl (fun ix e => ix.set e.1 e.2) empty = g.vertexIndex := by
  have h := entries_foldl_set g.vertexIndex.entries empty g.nodup
  generalize g.vertexIndex.entries.foldl (fun ix e => ix.set e.1 e.2) empty = ix at h
  obtain ⟨entries⟩ := ix
  exact congrArg mk h

theorem readLoop_vertices (E : Encoders) (g : RccGraph) (rest : List UInt8) :
    Codec.readLoop (getVertex E) (fun ref e => some (ref.set e.1 e.2)) g.vertexIndex.size empty
      (g.vertexIndex.entries.flatMap (putVertex E) ++ rest) = some (g.vertexIndex, rest) := by
  rw [VertexIndex.size, Codec.readLoop_put fun e he rest => getVertex_put E (g.keyed e he) rest]
  have hfold : g.vertexIndex.entries.foldlM (fun (ref : VertexIndex) e =>
      some (ref.set e.1 e.2)) empty = some g.vertexIndex :=
    foldlM_pure.trans (congrArg some (foldl_set_entries g))
  rw [hfold]
  rfl

/-- Reading back the message of a graph of fewer than 10000 vertices takes off exactly what was
    written and gives a graph with the same vertices, each with its id, status, partitions, epoch
    and parents. -/
theorem fromMarshal_toMarshal (E : Encoders) (g : RccGraph) (hn : g.vertexIndex.size < 10000)
    (rest : List UInt8) : ∃ bytes, ∃ g' : RccGraph, toMarshal E g.vertexIndex = some bytes ∧
      fromMarshal E empty (bytes ++ rest) = some (g'.vertexIndex, rest) ∧
      ∀ id, g'.vertexIndex.find id = g.vertexIndex.find id := by
  refine ⟨_, g, if_pos hn, ?_, fun _ => rfl⟩
  have hsize : (UInt64.ofNat g.vertexIndex.size).toNat = g.vertexIndex.size := by
    rw [UInt64.toNat_ofNat', Nat.mod_eq_of_lt (by omega)]
  have hempty : VertexIndex.size empty = 0 := rfl
  simp only [fromMarshal, append_assoc, Codec.get_put, Option.bind_eq_bind, Option.bind_some,
    hsize, hempty, hn, readLoop_vertices, guard_true, pure, foldl_set_entries]

instance encodableUInt64 : Encodable UInt64 :=
  Encodable.ofLeftInverse UInt64.toNat UInt64.ofNat fun _ => UInt64.ofNat_toNat

instance encodableUInt32 : Encodable UInt32 :=
  Encodable.ofLeftInverse UInt32.toNat UInt32.ofNat fun _ => UInt32.ofNat_toNat

instance encodableUInt8 : Encodable UInt8 :=
  Encodable.ofLeftInverse UInt8.toNat UInt8.ofNat fun _ => UInt8.ofNat_toNat

/-- Encoders that count in ones. -/
def onesEncoders : Encoders where
  u64 := Codec.numbered _
  u32 := Codec.numbered _
  i8 := Codec.numbered _
  set32 := Codec.numbered _
  set64 := Codec.numbered _

/-- Two transactions, each a parent of the other. -/
def crossed : RccGraph where
  vertexIndex := ⟨[(7, ⟨7, 9, {1, 2}, 0, {8}⟩), (8, ⟨8, 1, {2}, 3, {7, 5}⟩)]⟩
  nodup := by decide
  keyed := by decide

/-- Their graph comes back, and what follows it in the stream stays there. -/
theorem fromMarshal_toMarshal_crossed :
    VertexIndex.size crossed.vertexIndex < 10000 ∧ ∃ bytes, ∃ g' : RccGraph,
      toMarshal onesEncoders crossed.vertexIndex = some bytes ∧
      fromMarshal onesEncoders empty (bytes ++ [1, 0]) = some (g'.vertexIndex, [1, 0]) ∧
      ∀ id, g'.vertexIndex.find id = crossed.vertexIndex.find id :=
  ⟨by decide, fromMarshal_toMarshal onesEncoders crossed (by decide) [1, 0]⟩

end Fiss.Rcc
