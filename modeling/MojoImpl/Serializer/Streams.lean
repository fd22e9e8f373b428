import MojoImpl.Serializer.RoundTrip

/-! Values of any types in one Serializer: `<<` after `<<`, and then `>>` after `>>`. What is
written says which values were written, also where `>>` does not get them back. -/
namespace MojoImpl.Serializer
open Foundation MojoImpl.ByteArray

section Formats
variable (same : SameElement)

def scalarFormat (kind : Scalar) : Format kind.Value where
  Valid := Valid same (.scalar kind)
  print := encodeScalar kind
  unique a b _ valid valid' := (consumes_readScalar same kind a valid).unique (consumes_readScalar same kind b valid')

def sizeFormat : Format Nat where
  Valid n := n < 2^64
  print := encodeSize
  unique n m bytes short short' first second := by
    have equal : UInt64.ofNat n = UInt64.ofNat m :=
      (scalarFormat same .uint64).unique (UInt64.ofNat n) (UInt64.ofNat m) bytes trivial trivial first second
    rw [← toNat_ofNat_size short,equal,toNat_ofNat_size short']

/-- So many values after their number. -/
def listFormat {α : Type} (F : Format α) : Format (List α) :=
  ((sizeFormat same).seq F.items).via (fun l => (l.length,l)) (fun _ _ equal => (Prod.mk.inj equal).2)

def format : (t : Ty) → Format t.Value
  | .scalar kind => scalarFormat same kind
  | .pair first second => (format first).seq fun _ => format second
  | .collection _ element => listFormat same (format element)
  | .mapping _ key value => listFormat same ((format key).seq fun _ => format value)

theorem format_print (t : Ty) (v : t.Value) : (format same t).print v = encode t v := by
  induction t with
  | scalar kind => rfl
  | pair first second ihFirst ihSecond =>
    have both : (format same (.pair first second)).print v =
        (format same first).print v.1 ++ (format same second).print v.2 := rfl
    rw [both,ihFirst,ihSecond,encode]
  | collection kind element ih =>
    have all : (format same (.collection kind element)).print v =
        encodeSize v.length ++ v.flatMap (format same element).print := rfl
    rw [all,funext ih,encode]
  | mapping kind key value ihKey ihValue =>
    have all : (format same (.mapping kind key value)).print v = encodeSize v.length ++
        v.flatMap fun p => (format same key).print p.1 ++ (format same value).print p.2 := rfl
    rw [all,funext ihKey,funext ihValue,encode]

theorem format_valid (t : Ty) (v : t.Value) (valid : Valid same t v) : (format same t).Valid v := by
  induction t with
  | scalar kind => exact valid
  | pair first second ihFirst ihSecond => exact ⟨ihFirst v.1 valid.1,ihSecond v.2 valid.2⟩
  | collection kind element ih =>
    obtain ⟨short,each,_⟩ := valid
    exact ⟨short,rfl,fun e member => ih e (each e member)⟩
  | mapping kind key value ihKey ihValue =>
    obtain ⟨short,each,_⟩ := valid
    exact ⟨short,rfl,fun p member => ⟨ihKey p.1 (each p member).1,ihValue p.2 (each p member).2⟩⟩

end Formats

section Streams
variable (same : SameElement)

/-- A value with its type, as `<<` is given it. -/
abbrev Entry := (t : Ty) × Object same t

/-- A value with its type, as `>>` leaves it in a variable. -/
abbrev Stored := (t : Ty) × t.Value

variable {same}

def insertAll (l : List (Entry same)) : Action Unit := l.forM fun e => insert e.1 e.2.value

def encodeAll (l : List (Entry same)) : List UInt8 := l.flatMap fun e => encode e.1 e.2.value

def types (l : List (Entry same)) : List Ty := l.map fun e => e.1

def values (l : List (Entry same)) : List Stored := l.map fun e => ⟨e.1,e.2.value⟩

variable (same)

/-- Each value is read into a variable of its own. -/
def extractAll : List Ty → Action (List Stored)
  | [] => return []
  | t::rest => do
    let v ← extract same t (fresh t)
    let more ← extractAll rest
    return ⟨t,v⟩::more

variable {same}

theorem packing_insertAll (l : List (Entry same)) : Packing (insertAll l) (encodeAll l) :=
  packing_forM _ _ l (fun e _ => packing_insert e.1 e.2.value)

theorem encodeAll_ne_nil (e : Entry same) (l : List (Entry same)) : encodeAll (e::l) ≠ [] := by
  rw [encodeAll,List.flatMap_cons]
  exact List.append_ne_nil_of_left_ne_nil (encode_ne_nil e.1 e.2.value) _

/-- The last value ends in an empty string. -/
def LastEmpty (l : List (Entry same)) : Prop := ∃ e ∈ l.getLast?, EndsEmpty e.1 e.2.value

theorem consumes_extractAll (l : List (Entry same)) (sighted : ∀ e ∈ l, Sighted e.1 e.2.value) :
    Consumes (extractAll same (types l)) (encodeAll l) (values l) (LastEmpty l) := by
  induction l with
  | nil => exact (takes_pure []).consumes.congr (by simp [LastEmpty])
  | cons e l ih =>
    have head := consumes_extract same e.1 e.2.value e.2.valid (sighted e (by simp))
    rcases l with _ | ⟨d,l⟩
    · have only := head.map fun v => ([⟨e.1,v⟩] : List Stored)
      rw [encodeAll,List.flatMap_cons,List.flatMap_nil,List.append_nil]
      exact only.congr (by simp [LastEmpty])
    · have tail := (ih (fun c member => sighted c (by simp [member]))).map
        fun more => (⟨e.1,e.2.value⟩::more : List Stored)
      have whole := head.bind (y := fun v => do
        let more ← extractAll same (types (d::l))
        return (⟨e.1,v⟩::more : List Stored)) tail (encodeAll_ne_nil d l)
      rw [encodeAll,List.flatMap_cons]
      exact whole.congr (by simp [LastEmpty])

theorem insertAll_packs (heap : Nat → Nat → UInt8) (l : List (Entry same)) :
    ∃ s u, (insertAll l).run (create heap kBaseSize) = .ok () s ∧ (setPosition 0).run s = .ok () u ∧
      u.Synced ∧ u.unread = encodeAll l ∧ u.position = 0 ∧
      ((encodeAll l).length = u.capacity ↔ 0 < (encodeAll l).length ∧ kBaseSize ∣ (encodeAll l).length) := by
  obtain ⟨s,ran,packs,base⟩ := packing_insertAll l _ _ (create_packs heap kBaseSize (by decide))
  obtain ⟨u,sought,synced,unread,position,_⟩ := packs.toHolds.seek (v := 0) (Nat.zero_le _)
  rw [List.nil_append] at packs unread
  have full := packs.full_iff
  rw [base,← setPosition_capacity sought] at full
  exact ⟨s,u,ran,sought,synced,unread,position,full⟩

/-- `l` and `more` are written to a fresh Serializer and, after `reset`, the values of `l` are read. -/
def exchange (l more : List (Entry same)) : Action (List Stored) := do
  insertAll (l++more)
  setPosition 0
  extractAll same (types l)

/-- All that was written is read, it ends in an empty string and fills its chunks. -/
def Overrun (l more : List (Entry same)) : Prop :=
  more = [] ∧ LastEmpty l ∧ kBaseSize ∣ (encodeAll l).length

theorem overrun_iff {l more : List (Entry same)} {u : MojoImpl.ByteArray} (synced : u.Synced)
    (unread : u.unread = encodeAll (l++more)) (position : u.position = 0)
    (full : (encodeAll (l++more)).length = u.capacity ↔
      0 < (encodeAll (l++more)).length ∧ kBaseSize ∣ (encodeAll (l++more)).length) :
    LastEmpty l ∧ (encodeAll l).length = u.capacity ↔ Overrun l more := by
  constructor
  · intro caught
    obtain ⟨empty,filled⟩ := caught
    cases more with
    | nil =>
      rw [List.append_nil] at full
      exact ⟨rfl,empty,(full.mp filled).2⟩
    | cons d more =>
      have starts : encodeAll (l++d::more) <+: u.unread := by rw [unread]
      have inside := prefix_inside synced starts
      have some_byte := List.length_pos_of_ne_nil (encodeAll_ne_nil d more)
      have both : encodeAll (l++d::more) = encodeAll l++encodeAll (d::more) := List.flatMap_append
      rw [both,List.length_append] at inside
      omega
  · intro caught
    obtain ⟨rfl,empty,whole⟩ := caught
    rw [List.append_nil] at full
    refine ⟨empty,full.mpr ⟨?_,whole⟩⟩
    obtain ⟨e,last,_⟩ := empty
    cases l with
    | nil => contradiction
    | cons d l => exact List.length_pos_of_ne_nil (encodeAll_ne_nil d l)

/-- What a Serializer holds after `l` was written to it. -/
def written (heap : Nat → Nat → UInt8) (l : List (Entry same)) : EStateM.Result Fault MojoImpl.ByteArray (List UInt8) :=
  (do
    insertAll l
    setPosition 0
    ByteArray.toString).run (create heap kBaseSize)

theorem written_encodeAll (heap : Nat → Nat → UInt8) (l : List (Entry same)) :
    ∃ s, written heap l = .ok (encodeAll l) s := by
  obtain ⟨s,u,ran,sought,synced,unread,_⟩ := insertAll_packs heap l
  exact ⟨u,by rw [written,run_bind_ok _ ran,run_bind_ok _ sought,toString_unread synced,unread]⟩

theorem encodeAll_unique {l m : List (Entry same)} {bytes : List UInt8} (typed : types l = types m)
    (first : encodeAll l <+: bytes) (second : encodeAll m <+: bytes) : l = m := by
  induction l generalizing m bytes with
  | nil =>
    cases m with
    | nil => rfl
    | cons d m => contradiction
  | cons e l ih =>
    cases m with
    | nil => contradiction
    | cons d m =>
      obtain ⟨t,v⟩ := e
      obtain ⟨u,w⟩ := d
      obtain ⟨sort,rest⟩ := List.cons.inj typed
      cases sort
      rw [encodeAll,List.flatMap_cons] at first second
      obtain ⟨head,tail⟩ := (Format.prefix_append_iff _ _ _).mp first
      obtain ⟨head',tail'⟩ := (Format.prefix_append_iff _ _ _).mp second
      have equal : v.value = w.value :=
        (format same t).unique v.value w.value bytes (format_valid same t v.value v.valid)
          (format_valid same t w.value w.valid) (by rwa [format_print]) (by rwa [format_print])
      cases v
      cases w
      cases equal
      rw [ih rest tail tail']

end Streams

end MojoImpl.Serializer
