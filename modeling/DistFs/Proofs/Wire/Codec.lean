import DistFs.Proofs.PathText
import DistFs.Proofs.Text.Json
import DistFs.Wire.Codec
/-!
# Nothing is lost on the wire

Whatever is sent arrives as it was: reading the written form of a request, a reply, an error, a
mode, a path, or of an envelope or a response around them, gives back what was written.
-/

namespace DistFs

namespace Json

variable {α : Type} {toJson : α → Json} {ofJson : Json → Option α}

def encode (toJson : α → Json) (a : α) : String := (toJson a).render

def decode (ofJson : Json → Option α) (payload : String) : Option α := (parse payload).bind ofJson

def Lossless (toJson : α → Json) (ofJson : Json → Option α) : Prop :=
  ∀ a, (toJson a).isPlain = true ∧ ofJson (toJson a) = some a

theorem Lossless.decode_encode (h : Lossless toJson ofJson) (a : α) :
    decode ofJson (encode toJson a) = some a := by
  rw [decode, encode, parse_render _ (h a).1, Option.bind_some, (h a).2]

/-! ## The parts of documents -/

theorem isPlain_word (n : UInt64) : (word n).isPlain = true := by
  simpa [word, isPlain] using n.toNat_lt

theorem asWord_word (n : UInt64) : asWord (word n) = some n := by
  rw [word, asWord, if_pos n.toNat_lt, UInt64.ofNat_toNat]

theorem arePlain_map {l : List α} (plain : ∀ a, (toJson a).isPlain = true) :
    arePlain (l.map toJson) = true := by
  induction l with
  | nil => rfl
  | cons a l ih => rw [List.map_cons, arePlain, plain, ih, Bool.and_self]

theorem Lossless.list (h : Lossless toJson ofJson) :
    Lossless (fun l : List α => array (l.map toJson)) (asList ofJson) := by
  intro l
  refine ⟨arePlain_map fun a => (h a).1, ?_⟩
  have one : ofJson ∘ toJson = some := funext fun a => (h a).2
  rw [asList, List.mapM_map, one]
  exact (List.mapM_pure (m := Option) (f := id)).trans (by simp)

theorem lossless_byte : Lossless (fun b : UInt8 => nat b.toNat) asByte := by
  intro b
  have small : b.toNat < 256 := b.toNat_lt
  refine ⟨?_, by rw [asByte, if_pos small, UInt8.ofNat_toNat]⟩
  simpa [isPlain] using Nat.lt_trans small (show 256 < UInt64.size by decide)

mutual

theorem isSound_of_isPlain : ∀ v : Json, v.isPlain = true → v.isSound = true
  | null, _ | bool _, _ | nat _, _ | text _, _ => rfl
  | array vs, plain => areSound_of_arePlain vs plain
  | object fields, plain => areFieldsSound_of_arePlain fields plain

theorem areSound_of_arePlain : ∀ vs : List Json, arePlain vs = true → areSound vs = true
  | [], _ => rfl
  | v :: vs, plain => by
    obtain ⟨first, others⟩ := Bool.and_eq_true_iff.mp plain
    exact Bool.and_eq_true_iff.mpr ⟨isSound_of_isPlain v first, areSound_of_arePlain vs others⟩

theorem areFieldsSound_of_arePlain : ∀ fields : List (Option String × Json),
    areFieldsPlain fields = true → areFieldsSound fields = true
  | [], _ => rfl
  | (k, v) :: fields, plain => by
    obtain ⟨first, others⟩ := Bool.and_eq_true_iff.mp plain
    obtain ⟨named, whole⟩ := Bool.and_eq_true_iff.mp first
    exact Bool.and_eq_true_iff.mpr ⟨Bool.and_eq_true_iff.mpr ⟨named, isSound_of_isPlain v whole⟩,
      areFieldsSound_of_arePlain fields others⟩

end

theorem nestingItems_map (l : List α) (flat : ∀ a, (toJson a).nesting = 0) :
    nestingItems (l.map toJson) = 0 := by
  induction l with
  | nil => rfl
  | cons a l ih => rw [List.map_cons, nestingItems, flat, ih, Nat.max_self]

end Json

open Json

/-! ## Paths, modes and errors -/

theorem Path.lossless : Lossless Path.toJson Path.ofJson := by
  intro p
  refine ⟨rfl, ?_⟩
  simp [Path.ofJson, Path.toJson, asText, Path.parse_text, Except.toOption]

theorem LockMode.lossless : Lossless LockMode.toJson LockMode.ofJson := by
  intro mode
  cases mode <;> exact ⟨rfl, rfl⟩

theorem Path.ofJson_toJson (p : Path) : Path.ofJson p.toJson = some p := (Path.lossless p).2

theorem Path.isPlain_toJson (p : Path) : p.toJson.isPlain = true := rfl

theorem Error.isPlain_toJson (e : Error) : e.toJson.isPlain = true := by
  cases e with
  | outOfBounds p offset length size =>
    simp only [toJson, case, field, isPlain, areFieldsPlain, isPlain_word, Path.isPlain_toJson]
    rfl
  | _ => rfl

theorem Error.lossless : Lossless Error.toJson Error.ofJson := by
  intro e
  refine ⟨e.isPlain_toJson, ?_⟩
  cases e with
  | notFound p | notADirectory p | notAFile p | alreadyExists p | lockInterrupted p =>
    exact congrArg (Option.map _) p.ofJson_toJson
  | communication s | alreadyRegistered s | io s | config s | noStorage | invalidPath s t => rfl
  | notLocked p mode => exact congrArg (Option.bind · _) p.ofJson_toJson
  | outOfBounds p offset length size =>
    change (do
      return outOfBounds (← Path.ofJson p.toJson) (← asWord (word offset)) (← asWord (word length))
        (← asWord (word size))) = _
    rw [Path.ofJson_toJson, asWord_word, asWord_word, asWord_word]
    rfl

/-! ## Requests and replies -/

theorem arePlain_bytes (data : List UInt8) : arePlain (data.map fun b => nat b.toNat) = true :=
  arePlain_map fun b => (lossless_byte b).1

theorem arePlain_paths (ps : List Path) : arePlain (ps.map Path.toJson) = true :=
  arePlain_map Path.isPlain_toJson

theorem asList_bytes (data : List UInt8) :
    asList asByte (array (data.map fun b => nat b.toNat)) = some data := (lossless_byte.list data).2

theorem asList_paths (ps : List Path) : asList Path.ofJson (array (ps.map Path.toJson)) = some ps :=
  (Path.lossless.list ps).2

theorem Request.isPlain_toJson (r : Request) : r.toJson.isPlain = true := by
  cases r <;>
    simp [toJson, field, isPlain, areFieldsPlain, isPlain_word, Path.isPlain_toJson, arePlain_bytes,
      arePlain_paths]

theorem Request.nesting_toJson (r : Request) : r.toJson.nesting ≤ 2 := by
  have bytes (data : List UInt8) : nestingItems (data.map fun b => nat b.toNat) = 0 :=
    nestingItems_map data fun _ => rfl
  have paths (ps : List Path) : nestingItems (ps.map Path.toJson) = 0 :=
    nestingItems_map ps fun _ => rfl
  cases r <;> simp [toJson, field, nesting, nestingFields, word, Path.toJson, bytes, paths]

theorem Request.lossless (depth : Nat) (shallow : depth + 2 ≤ maxNesting) :
    Lossless Request.toJson (Request.ofJson depth) := by
  intro r
  refine ⟨r.isPlain_toJson, ?_⟩
  have sound := isSound_of_isPlain _ r.isPlain_toJson
  have within : depth + r.toJson.nesting ≤ maxNesting :=
    Nat.le_trans (Nat.add_le_add_left r.nesting_toJson depth) shallow
  have allowed : (r.toJson.isSound && decide (depth + r.toJson.nesting ≤ maxNesting)) = true := by
    rw [sound, decide_eq_true within, Bool.and_self]
  unfold Request.ofJson
  rw [allowed]
  cases r with
  | size p | create p | delete p => exact congrArg (Option.map _) p.ofJson_toJson
  | read p offset length =>
    change (do
      return read (← Path.ofJson p.toJson) (← asWord (word offset)) (← asWord (word length))) = _
    rw [Path.ofJson_toJson, asWord_word, asWord_word]
    rfl
  | write p offset data =>
    change (do
      return write (← Path.ofJson p.toJson) (← asWord (word offset))
        (← asList asByte (array (data.map fun b : UInt8 => nat b.toNat)))) = _
    rw [Path.ofJson_toJson, asWord_word, asList_bytes]
    rfl
  | copy p source => exact congrArg (Option.bind · _) p.ofJson_toJson
  | register storage command files =>
    exact congrArg (Option.bind · fun files => some (register storage command files))
      (asList_paths files)

theorem Reply.lossless : Lossless Reply.toJson Reply.ofJson := by
  intro r
  constructor
  · cases r <;>
      simp [toJson, case, isPlain, areFieldsPlain, isPlain_word, arePlain_bytes, arePlain_paths]
  · cases r with
    | size n => exact congrArg (Option.map _) (asWord_word n)
    | data bytes => exact congrArg (Option.map _) (asList_bytes bytes)
    | paths ps => exact congrArg (Option.map _) (asList_paths ps)
    | unit | flag b => rfl

/-! ## Envelopes and responses -/

theorem Envelope.lossless : Lossless Envelope.toJson Envelope.ofJson := by
  intro e
  obtain ⟨plain, kept⟩ := Request.lossless 1 (by decide) e.request
  constructor
  · simp [toJson, field, isPlain, areFieldsPlain, isPlain_word, plain]
  · change (do return ⟨← asWord (word e.id), ← Request.ofJson 1 e.request.toJson⟩) = some e
    rw [asWord_word, kept]
    rfl

theorem Response.lossless : Lossless Response.toJson Response.ofJson := by
  intro r
  obtain ⟨id, result⟩ := r
  cases result with
  | ok reply =>
    obtain ⟨plain, kept⟩ := Reply.lossless reply
    constructor
    · simp [toJson, case, field, isPlain, areFieldsPlain, isPlain_word, plain]
    · change (do
        let id ← asWord (word id)
        return Response.mk id (.ok (← Reply.ofJson reply.toJson))) = _
      rw [asWord_word, kept]
      rfl
  | error e =>
    obtain ⟨plain, kept⟩ := Error.lossless e
    constructor
    · simp [toJson, case, field, isPlain, areFieldsPlain, isPlain_word, plain]
    · change (do
        let id ← asWord (word id)
        return Response.mk id (.error (← Error.ofJson e.toJson))) = _
      rw [asWord_word, kept]
      rfl

theorem Envelope.decode_encode (e : Envelope) : Envelope.decode e.encode = some e :=
  Envelope.lossless.decode_encode e

theorem Response.decode_encode (r : Response) : Response.decode r.encode = some r :=
  Response.lossless.decode_encode r

/-! ## The wire -/

namespace Wire

/-- Every message can be sent, and arrives as it was. -/
theorem messages_arrive_whole :
    (∀ e : Envelope, Envelope.decode e.encode = some e) ∧
    (∀ r : Response, Response.decode r.encode = some r) ∧
    (∀ r : Request, decode (Request.ofJson 0) (encode Request.toJson r) = some r) ∧
    (∀ r : Reply, decode Reply.ofJson (encode Reply.toJson r) = some r) ∧
    (∀ e : Error, decode Error.ofJson (encode Error.toJson e) = some e) ∧
    (∀ mode : LockMode, decode LockMode.ofJson (encode LockMode.toJson mode) = some mode) ∧
    ∀ p : Path, decode Path.ofJson (encode Path.toJson p) = some p :=
  ⟨Envelope.decode_encode, Response.decode_encode, (Request.lossless 0 (by decide)).decode_encode,
    Reply.lossless.decode_encode, Error.lossless.decode_encode, LockMode.lossless.decode_encode,
    Path.lossless.decode_encode⟩

end Wire

end DistFs
