import MojoImpl.Serializer.Values

/-! What comes back of a value. `operator>>` skips the bytes of elements that are not
scalar in every container but a map, and stops at an empty string that ends the last chunk. -/
namespace MojoImpl.Serializer
open Foundation MojoImpl.ByteArray

section Encoding

def encodeScalar : (kind : Scalar) → kind.Value → List UInt8
  | .bool, t => littleEndian 1 (if t then 1 else 0 : Int8).toUInt8.toNat
  | .float, t => littleEndian 4 t.toNat
  | .double, t => littleEndian 8 t.toNat
  | .int8, t => littleEndian 1 t.toUInt8.toNat
  | .uint8, t => [t]
  | .int16, t => littleEndian 2 t.toUInt16.toNat
  | .uint16, t => littleEndian 2 t.toNat
  | .int32, t => varint 4 (encodeZigzag32 t).toNat
  | .uint32, t => varint 4 t.toNat
  | .int64, t => varint 9 (encodeZigzag64 t).toNat
  | .uint64, t => varint 9 t.toNat
  | .string, t => varint 9 (UInt64.ofNat t.length).toNat ++ t

def encodeSize (n : Nat) : List UInt8 := varint 9 (UInt64.ofNat n).toNat

def encode : (t : Ty) → t.Value → List UInt8
  | .scalar kind, i => encodeScalar kind i
  | .pair first second, m => encode first m.1 ++ encode second m.2
  | .collection _ element, v => encodeSize v.length ++ v.flatMap (encode element)
  | .mapping _ key value, m => encodeSize m.length ++ m.flatMap fun p => encode key p.1 ++ encode value p.2

def EndsEmpty : (t : Ty) → t.Value → Prop
  | .scalar .string, v => v = []
  | .scalar _, _ => False
  | .pair _ second, v => EndsEmpty second v.2
  | .collection _ element, v => ∃ e ∈ v.getLast?, EndsEmpty element e
  | .mapping _ _ value, v => ∃ p ∈ v.getLast?, EndsEmpty value p.2

/-- Every container but a map holds scalars or nothing. -/
def Sighted : (t : Ty) → t.Value → Prop
  | .scalar _, _ => True
  | .pair first second, v => Sighted first v.1 ∧ Sighted second v.2
  | .collection _ element, v => (∃ kind, element = .scalar kind) ∨ v = []
  | .mapping _ key value, v => ∀ p ∈ v, Sighted key p.1 ∧ Sighted value p.2

/-- Every container but a map holds scalars or nothing but fresh values. -/
def Dull : (t : Ty) → t.Value → Prop
  | .scalar _, _ => True
  | .pair first second, v => Dull first v.1 ∧ Dull second v.2
  | .collection _ element, v => (∃ kind, element = .scalar kind) ∨ ∀ e ∈ v, e = fresh element
  | .mapping _ key value, v => ∀ p ∈ v, Dull key p.1 ∧ Dull value p.2

theorem encodeScalar_ne_nil (kind : Scalar) (v : kind.Value) : encodeScalar kind v ≠ [] := by
  cases kind with
  | int32 => exact varint_ne_nil _ _
  | uint32 => exact varint_ne_nil _ _
  | int64 => exact varint_ne_nil _ _
  | uint64 => exact varint_ne_nil _ _
  | string => exact List.append_ne_nil_of_left_ne_nil (varint_ne_nil _ _) _
  | _ => exact List.cons_ne_nil _ _

theorem encode_ne_nil (t : Ty) (v : t.Value) : encode t v ≠ [] := by
  induction t with
  | scalar kind => exact encodeScalar_ne_nil kind v
  | pair first second ih => exact List.append_ne_nil_of_left_ne_nil (ih v.1) _
  | collection _ element => exact List.append_ne_nil_of_left_ne_nil (varint_ne_nil _ _) _
  | mapping _ key value => exact List.append_ne_nil_of_left_ne_nil (varint_ne_nil _ _) _

theorem packing_writeScalar (kind : Scalar) (v : kind.Value) : Packing (writeScalar kind v) (encodeScalar kind v) := by
  cases kind with
  | string => exact (packing_write (encodeSize v.length)).bind (packing_write v)
  | uint8 =>
    have whole : Packing (writeScalar .uint8 v) (littleEndian 1 v.toNat) := packing_write (littleEndian 1 v.toNat)
    rwa [littleEndian,UInt8.ofNat_toNat] at whole
  | _ => exact packing_write (encodeScalar _ v)

theorem packing_insert (t : Ty) (v : t.Value) : Packing (insert t v) (encode t v) := by
  induction t with
  | scalar kind => exact packing_writeScalar kind v
  | pair first second ihFirst ihSecond => exact (ihFirst v.1).bind (ihSecond v.2)
  | collection kind element ih =>
    exact (packing_write (encodeSize _)).bind (packing_forM _ _ v (fun e _ => ih e))
  | mapping kind key value ihKey ihValue =>
    exact (packing_write (encodeSize _)).bind (packing_forM _ _ v (fun p _ => (ihKey p.1).bind (ihValue p.2)))

end Encoding

section Reading
variable (same : SameElement)

theorem consumes_readScalar (kind : Scalar) (v : kind.Value) (valid : Valid same (.scalar kind) v) :
    Consumes (readScalar kind) (encodeScalar kind v) v (EndsEmpty (.scalar kind) v) := by
  cases kind with
  | bool =>
    have whole := (takes_readFint8 (if v then 1 else 0)).consumes.map (fun t => t != 0)
    cases v <;> exact whole
  | float => exact (takes_readFuint32 v).consumes
  | double => exact (takes_readFuint64 v).consumes
  | int8 => exact (takes_readFint8 v).consumes
  | uint8 => exact (takes_readFuint8 v).consumes
  | int16 => exact (takes_readFint16 v).consumes
  | uint16 => exact (takes_readFuint16 v).consumes
  | int32 => exact (takes_readInt32 v).consumes
  | uint32 => exact (takes_readUint32 v).consumes
  | int64 => exact (takes_readInt64 v).consumes
  | uint64 => exact (takes_readUint64 v).consumes
  | string => exact consumes_readStringVint v valid

theorem foldl_place {β : Type} (unique : Bool) (clash : β → β → Bool) (held v : List β)
    (distinct : unique = true → (held ++ v).Pairwise fun x y => clash x y = false) :
    v.foldl (place unique clash) held = held ++ v := by
  induction v generalizing held with
  | nil => rw [List.foldl_nil,List.append_nil]
  | cons e v ih =>
    have placed : place unique clash held e = held ++ [e] := by
      rw [place,if_neg]
      intro present
      obtain ⟨single,there⟩ := Bool.and_eq_true_iff.mp present
      obtain ⟨x,member,equal⟩ := List.any_eq_true.mp there
      have apart := (List.pairwise_append.mp (distinct single)).2.2 x member e (by simp)
      rw [equal] at apart
      contradiction
    have joined : held ++ e :: v = (held ++ [e]) ++ v := by simp
    rw [List.foldl_cons,placed,joined]
    exact ih _ (fun single => joined ▸ distinct single)

theorem toNat_ofNat_size {n : Nat} (short : n < 2^64) : (UInt64.ofNat n).toNat = n := by
  rw [UInt64.toNat_ofNat']
  exact Nat.mod_eq_of_lt short

/-- A sighted value is read off its bytes, unless it ends in an empty string at the end of
the last chunk. -/
theorem consumes_extract (t : Ty) (v : t.Value) (valid : Valid same t v) (sighted : Sighted t v) :
    Consumes (extract same t (fresh t)) (encode t v) v (EndsEmpty t v) := by
  induction t with
  | scalar kind => exact consumes_readScalar same kind v valid
  | pair first second ihFirst ihSecond =>
    have tail := (ihSecond v.2 valid.2 sighted.2).map (fun b => (v.1,b))
    exact (ihFirst v.1 valid.1 sighted.1).bind tail (encode_ne_nil second v.2)
  | collection kind element ih =>
    obtain ⟨short,each,distinct⟩ := valid
    apply (takes_readUint64 _).then
    rw [toNat_ofNat_size short]
    have all := consumes_times
      (fun v => do
        let t ← read element (fresh element)
        return emplace same kind v t)
      (place kind.unique (same element)) (encode element) (EndsEmpty element) (encode_ne_nil element) v []
      (by
        intro e member held
        rcases sighted with ⟨scalar,rfl⟩ | empty
        · exact (consumes_readScalar same scalar e (each e member)).map _
        · rw [empty] at member
          contradiction)
    rwa [foldl_place _ _ [] v distinct] at all
  | mapping kind key value ihKey ihValue =>
    obtain ⟨short,each,distinct⟩ := valid
    apply (takes_readUint64 _).then
    rw [toNat_ofNat_size short]
    have all := consumes_times
      (fun m => do
        let a ← extract same key (fresh key)
        let b ← extract same value (fresh value)
        return emplacePair same kind m (a,b))
      (place kind.unique (fun p q => same key p.1 q.1)) (fun p => encode key p.1 ++ encode value p.2)
      (fun p => EndsEmpty value p.2)
      (fun p => List.append_ne_nil_of_left_ne_nil (encode_ne_nil key p.1) _) v []
      (by
        intro p member held
        obtain ⟨validKey,validValue⟩ := each p member
        obtain ⟨sightedKey,sightedValue⟩ := sighted p member
        have tail := (ihValue p.2 validValue sightedValue).map (fun b => emplacePair same kind held (p.1,b))
        exact (ihKey p.1 validKey sightedKey).bind tail (encode_ne_nil value p.2))
    rwa [foldl_place _ _ [] v distinct] at all

theorem Equal.refl (t : Ty) (v : t.Value) : Equal t v v := by
  induction t with
  | scalar kind => rfl
  | pair first second ihFirst ihSecond => exact ⟨ihFirst v.1,ihSecond v.2⟩
  | collection kind element ih =>
    have each : List.Forall₂ (Equal element) v v := List.forall₂_same.mpr (fun e _ => ih e)
    cases kind with
    | vector => exact each
    | _ => exact ⟨v,List.Perm.refl v,each⟩
  | mapping kind key value ihKey ihValue =>
    exact ⟨v,List.Perm.refl v,List.forall₂_same.mpr (fun p _ => ⟨ihKey p.1,ihValue p.2⟩)⟩

theorem insert_packs (heap : Nat → Nat → UInt8) (t : Ty) (v : t.Value) :
    ∃ s u, (insert t v).run (create heap kBaseSize) = .ok () s ∧ (setPosition 0).run s = .ok () u ∧
      u.Synced ∧ u.unread = encode t v ∧ u.position = 0 ∧
      ((encode t v).length = u.capacity ↔ kBaseSize ∣ (encode t v).length) := by
  obtain ⟨s,ran,packs,base⟩ := packing_insert t v _ _ (create_packs heap kBaseSize (by decide))
  obtain ⟨u,sought,synced,unread,position,_⟩ := packs.toHolds.seek (v := 0) (Nat.zero_le _)
  rw [List.nil_append] at packs unread
  have some_byte : 0 < (encode t v).length := List.length_pos_of_ne_nil (encode_ne_nil t v)
  have full := packs.full_iff
  rw [base,← setPosition_capacity sought,and_iff_right some_byte] at full
  exact ⟨s,u,ran,sought,synced,unread,position,full⟩

theorem roundTrips_sighted (heap : Nat → Nat → UInt8) {t : Ty} (v : Object same t)
    (sighted : Sighted t v.value) :
    RoundTrips same heap t v.value ↔
      ¬(EndsEmpty t v.value ∧ kBaseSize ∣ (encode t v.value).length) := by
  obtain ⟨s,u,ran,sought,synced,unread,position,full⟩ := insert_packs heap t v.value
  obtain ⟨free,trapped⟩ := consumes_extract same t v.value v.valid sighted u synced (by rw [unread])
  rw [position,Nat.zero_add,full] at free trapped
  constructor
  · rintro ⟨a,w,all,_⟩ caught
    obtain ⟨r,failed⟩ := trapped caught
    rw [run_bind_ok _ ran,run_bind_ok _ sought,failed] at all
    contradiction
  · intro clear
    exact ⟨v.value,_,by rw [run_bind_ok _ ran,run_bind_ok _ sought,free clear],Equal.refl t v.value⟩

theorem mem_place {β : Type} {unique : Bool} {clash : β → β → Bool} {held : List β} {e x : β}
    (member : x ∈ place unique clash held e) : x ∈ held ∨ x = e := by
  rw [place] at member
  split at member
  · exact .inl member
  · exact (List.mem_append.mp member).imp_right List.mem_singleton.mp

theorem fresh_dull (t : Ty) : Dull t (fresh t) := by
  induction t with
  | scalar kind => trivial
  | pair first second ihFirst ihSecond => exact ⟨ihFirst,ihSecond⟩
  | collection kind element => exact .inr (fun e member => nomatch member)
  | mapping kind key value => exact fun p member => nomatch member

theorem extract_dull (t : Ty) {v w : t.Value} {s u : MojoImpl.ByteArray} (before : Dull t v)
    (ran : (extract same t v).run s = .ok w u) : Dull t w := by
  induction t generalizing s u with
  | scalar kind => trivial
  | pair first second ihFirst ihSecond =>
    obtain ⟨a,r,ranFirst,rest⟩ := run_bind_returned ran
    obtain ⟨b,q,ranSecond,last⟩ := run_bind_returned rest
    cases last
    exact ⟨ihFirst before.1 ranFirst,ihSecond before.2 ranSecond⟩
  | collection kind element ih =>
    obtain ⟨size,r,_,rest⟩ := run_bind_returned ran
    refine times_keeps (Dull (.collection kind element)) ?_ before rest
    intro v s w u held round
    obtain ⟨e,q,ranElement,last⟩ := run_bind_returned round
    cases last
    rcases held with scalar | same
    · exact .inl scalar
    cases element with
    | scalar kind => exact .inl ⟨kind,rfl⟩
    | _ =>
      cases ranElement
      exact .inr (fun x member => (mem_place member).elim (same x) id)
  | mapping kind key value ihKey ihValue =>
    obtain ⟨size,r,_,rest⟩ := run_bind_returned ran
    refine times_keeps (Dull (.mapping kind key value)) ?_ before rest
    intro m s w u held round
    obtain ⟨a,q,ranKey,round⟩ := run_bind_returned round
    obtain ⟨b,p,ranValue,last⟩ := run_bind_returned round
    cases last
    intro x member
    rcases mem_place member with old | rfl
    · exact held x old
    · exact ⟨ihKey (fresh_dull key) ranKey,ihValue (fresh_dull value) ranValue⟩

theorem forall₂_transfer {β : Type} {R : β → β → Prop} {P : β → Prop} {x y : List β}
    (related : List.Forall₂ R x y) (carry : ∀ a b, R a b → P a → P b) (each : ∀ a ∈ x, P a) :
    ∀ b ∈ y, P b := by
  induction related with
  | nil => exact each
  | @cons a b x y head tail ih =>
    intro c member
    rcases List.mem_cons.mp member with rfl | later
    · exact carry a c head (each a (by simp))
    · exact ih (fun d member => each d (by simp [member])) c later

/-- Elements equal to those of `x` are in `y`, in whatever order. -/
theorem equal_collection {kind : Collection} {t : Ty} {x y : List t.Value}
    (equal : Equal (.collection kind t) x y) :
    ∃ z : List t.Value, z.Perm y ∧ List.Forall₂ (Equal t) x z := by
  cases kind with
  | vector => exact ⟨y,List.Perm.refl y,equal⟩
  | _ => exact equal

theorem equal_fresh (t : Ty) {x : t.Value} (equal : Equal t (fresh t) x) : x = fresh t := by
  induction t with
  | scalar kind => exact equal.symm
  | pair first second ihFirst ihSecond => exact Prod.ext (ihFirst equal.1) (ihSecond equal.2)
  | collection kind element =>
    obtain ⟨z,perm,none⟩ := equal_collection equal
    cases List.forall₂_nil_left_iff.mp none
    exact perm.nil_eq.symm
  | mapping kind key value =>
    obtain ⟨z,perm,none⟩ := equal
    cases List.forall₂_nil_left_iff.mp none
    exact perm.nil_eq.symm

theorem equal_dull (t : Ty) {x y : t.Value} (equal : Equal t x y) (dull : Dull t x) : Dull t y := by
  induction t with
  | scalar kind => trivial
  | pair first second ihFirst ihSecond =>
    exact ⟨ihFirst equal.1 dull.1,ihSecond equal.2 dull.2⟩
  | collection kind element =>
    rcases dull with scalar | blank
    · exact .inl scalar
    · obtain ⟨z,perm,each⟩ := equal_collection equal
      right
      intro e member
      refine forall₂_transfer (P := fun e => e = fresh element) each ?_ blank e (perm.mem_iff.mpr member)
      rintro a b same rfl
      exact equal_fresh element same
  | mapping kind key value ihKey ihValue =>
    obtain ⟨z,perm,each⟩ := equal
    intro p member
    exact forall₂_transfer each
      (fun a b same before => ⟨ihKey same.1 before.1,ihValue same.2 before.2⟩) dull p
      (perm.mem_iff.mpr member)

theorem not_roundTrips (heap : Nat → Nat → UInt8) {t : Ty} {v : t.Value} (held : ¬Dull t v) :
    ¬RoundTrips same heap t v := by
  rintro ⟨a,s,ran,equal⟩
  obtain ⟨_,r,_,rest⟩ := run_bind_returned ran
  obtain ⟨_,q,_,reads⟩ := run_bind_returned rest
  exact held (equal_dull t equal (extract_dull same t (fresh_dull t) reads))

/-- A value with nothing but scalars in its containers, maps apart, comes back exactly when
it does not end in an empty string behind full chunks. One with something else than
fresh values there does not come back. Of one with fresh values there nothing is said. -/
theorem roundTrips_sighted_or_held (heap : Nat → Nat → UInt8) {t : Ty} (v : Object same t) :
    (Sighted t v.value → (RoundTrips same heap t v.value ↔
      ¬(EndsEmpty t v.value ∧ kBaseSize ∣ (encode t v.value).length))) ∧
    (¬Dull t v.value → ¬RoundTrips same heap t v.value) :=
  ⟨roundTrips_sighted same heap v,not_roundTrips same heap⟩

/-- A map from a string to a set of numbers. -/
theorem roundTrips_sighted_or_held_map :
    RoundTrips (fun _ _ _ => false) (fun _ _ => 0)
      (.mapping .map (.scalar .string) (.collection .set (.scalar .uint8))) [([97],[1,2])] := by
  refine ((roundTrips_sighted_or_held (fun _ _ _ => false) (fun _ _ => 0) ⟨_,?_⟩).1 ?_).mpr ?_
  · simp [Valid]
  · intro p member
    exact ⟨trivial,.inl ⟨_,rfl⟩⟩
  · rintro ⟨_,whole⟩
    revert whole
    decide

/-- The number in the inner vector is skipped. -/
theorem roundTrips_nested :
    ¬∀ (t : Ty) (v : Object (fun _ _ _ => false) t),
      RoundTrips (fun _ _ _ => false) (fun _ _ => 0) t v.value := by
  intro all
  have inner := all (.collection .vector (.collection .vector (.scalar .int32))) ⟨[[1]],by simp [Valid]⟩
  apply not_roundTrips _ _ _ inner
  rintro (⟨kind,scalar⟩ | blank)
  · contradiction
  · exact absurd (blank [1] (by simp)) (by decide)

end Reading

end MojoImpl.Serializer
