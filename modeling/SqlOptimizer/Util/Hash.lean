/-! `util/hash.hpp`, and Go's `hash/fnv`. -/

namespace SqlOptimizer

/-- 64-bit FNV-1a over the bytes of a string. -/
def fnv1a64 (data : String) : UInt64 :=
  data.toList.foldl (fun hash c => (hash ^^^ UInt64.ofNat (c.toNat % 256)) * 1099511628211)
    1469598103934665603

/-- The 16 hexadecimal digits of a hash. -/
def hex64 (v : UInt64) : String :=
  String.ofList ((List.range 16).map fun i => Nat.digitChar ((v.toNat >>> (4 * (15 - i))) % 16))

/-- 32-bit FNV-1a: Go's `fnv.New32a`. -/
def fnv1a32 (data : List UInt8) : UInt32 :=
  data.foldl (fun hash b => (hash ^^^ b.toUInt32) * 16777619) 2166136261

end SqlOptimizer
