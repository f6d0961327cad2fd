-- How the derived serializers put Rust types into JSON values: structs as objects
-- with the fields in the order of their declaration, enums by the name of the
-- variant from outside. A form carries the law that it reads back what it writes,
-- and a form put together from others has it without a proof of its own.
import Pemrix.Json
import Pemrix.TreeMapSums

/-- How a type becomes a JSON value, and how it is taken from one. -/
structure JsonForm (α : Type) where
  to_json : α → Json
  from_json : Json → Option α
  from_to : ∀ a, from_json (to_json a) = some a

namespace JsonForm

variable {α β : Type}

/-- The text of a value. -/
def to_vec (f : JsonForm α) (a : α) : List UInt8 := (f.to_json a).write

/-- A value from a text. -/
def from_slice (f : JsonForm α) (s : List UInt8) : Option α := (Json.read s).bind f.from_json

theorem from_slice_to_vec (f : JsonForm α) (a : α) : f.from_slice (f.to_vec a) = some a := by
  unfold from_slice to_vec
  rw [Json.read_write, Option.bind_some, f.from_to]

theorem to_vec_inj (f : JsonForm α) {a b : α} (h : f.to_vec a = f.to_vec b) : a = b := by
  have ha := f.from_slice_to_vec a
  rw [h, f.from_slice_to_vec] at ha
  exact (Option.some.inj ha).symm

/-! ## Simple types -/

def bool : JsonForm Bool where
  to_json := .bool
  from_json
    | .bool b => some b
    | _ => none
  from_to _ := rfl

/-- A number below a bound. -/
def below (bound : Nat) (into : β → Nat) (back : Nat → β)
    (h : ∀ b, into b < bound ∧ back (into b) = b) : JsonForm β where
  to_json b := .number (into b)
  from_json
    | .number n => if n < bound then some (back n) else none
    | _ => none
  from_to b := by
    dsimp only
    rw [if_pos (h b).1, (h b).2]

/-- A type with a text form. -/
def text (into : β → String) (back : String → Option β) (h : ∀ b, back (into b) = some b) :
    JsonForm β where
  to_json b := .string (into b)
  from_json
    | .string s => back s
    | _ => none
  from_to b := h b

/-- A value that is turned into another one first. -/
def via (f : JsonForm α) (into : β → α) (back : α → Option β) (h : ∀ b, back (into b) = some b) :
    JsonForm β where
  to_json b := f.to_json (into b)
  from_json j := (f.from_json j).bind back
  from_to b := by rw [f.from_to, Option.bind_some, h]

/-- Items one after another. -/
def all_from_json (f : JsonForm α) : List Json → Option (List α)
  | [] => some []
  | j :: js => (f.from_json j).bind fun a => (all_from_json f js).map (a :: ·)

theorem all_from_json_map (f : JsonForm α) (as : List α) :
    f.all_from_json (as.map f.to_json) = some as := by
  induction as with
  | nil => rfl
  | cons a as ih =>
    rw [List.map_cons, all_from_json, f.from_to, Option.bind_some, ih]
    rfl

/-- A vector. -/
def seq (f : JsonForm α) : JsonForm (List α) where
  to_json as := .array (as.map f.to_json)
  from_json
    | .array js => f.all_from_json js
    | _ => none
  from_to := f.all_from_json_map

/-- An option: `null` for none. -/
def option (f : JsonForm α) (h : ∀ a, f.to_json a ≠ .null) : JsonForm (Option α) where
  to_json
    | none => .null
    | some a => f.to_json a
  from_json
    | .null => some none
    | j => (f.from_json j).map some
  from_to
    | none => rfl
    | some a => by
      have hfrom := f.from_to a
      have hne := h a
      dsimp only
      split
      · rename_i hnull
        exact absurd hnull hne
      · rw [hfrom]
        rfl

/-! ## Maps -/

section Map

variable {κ : Type}

/-- The entries of an object. Each key stands for a text. -/
def entries (back : String → Option κ) (f : JsonForm α) :
    List (String × Json) → Option (List (κ × α))
  | [] => some []
  | (key, j) :: fs =>
    (back key).bind fun k => (f.from_json j).bind fun a => (entries back f fs).map ((k, a) :: ·)

theorem entries_map {into : κ → String} {back : String → Option κ} (h : ∀ k, back (into k) = some k)
    (f : JsonForm α) (l : List (κ × α)) :
    entries back f (l.map fun e => (into e.1, f.to_json e.2)) = some l := by
  induction l with
  | nil => rfl
  | cons e l ih =>
    rw [List.map_cons, entries, h, Option.bind_some, f.from_to, Option.bind_some, ih]
    rfl

variable [Ord κ] [Std.TransOrd κ] [Std.LawfulEqOrd κ]

/-- A `BTreeMap`: an object with the keys in order. Of two entries with one key the later one
stays. -/
def map (into : κ → String) (back : String → Option κ) (h : ∀ k, back (into k) = some k)
    (f : JsonForm α) : JsonForm (Std.ExtTreeMap κ α) where
  to_json m := .object (m.toList.map fun e => (into e.1, f.to_json e.2))
  from_json
    | .object fs => (entries back f fs).map (·.foldl (fun m e => m.insert e.1 e.2) ∅)
    | _ => none
  from_to m := by
    dsimp only
    rw [entries_map h, Option.map_some, Std.ExtTreeMap.foldl_insert_toList]

end Map

/-! ## Structs -/

/-- The fields of a struct, in the order of their declaration. -/
structure Fields (α : Type) where
  names : List String
  to_values : α → List Json
  from_values : List Json → Option α
  length_to : ∀ a, (to_values a).length = names.length
  from_to : ∀ a, from_values (to_values a) = some a

def Fields.last (name : String) (f : JsonForm α) : Fields α where
  names := [name]
  to_values a := [f.to_json a]
  from_values
    | [j] => f.from_json j
    | _ => none
  length_to _ := rfl
  from_to := f.from_to

def Fields.first (name : String) (f : JsonForm α) (rest : Fields β) : Fields (α × β) where
  names := name :: rest.names
  to_values p := f.to_json p.1 :: rest.to_values p.2
  from_values
    | j :: js => (f.from_json j).bind fun a => (rest.from_values js).map fun b => (a, b)
    | [] => none
  length_to p := by rw [List.length_cons, rest.length_to, List.length_cons]
  from_to p := by
    dsimp only
    rw [f.from_to, Option.bind_some, rest.from_to]
    rfl

/-- The one value with a name. A field that is missing or given twice is an error. -/
def field (fs : List (String × Json)) (name : String) : Option Json :=
  match fs.filter fun f => f.1 = name with
  | [f] => some f.2
  | _ => none

/-- The values of the fields in their order. Other fields are skipped. -/
def values (fs : List (String × Json)) : List String → Option (List Json)
  | [] => some []
  | name :: names => (field fs name).bind fun j => (values fs names).map (j :: ·)

theorem field_cons_of_ne {name : String} {f : String × Json} (h : f.1 ≠ name)
    (fs : List (String × Json)) : field (f :: fs) name = field fs name := by
  unfold field
  rw [List.filter_cons_of_neg (by simpa using h)]

theorem values_cons_of_not_mem {f : String × Json} {names : List String} (h : f.1 ∉ names)
    (fs : List (String × Json)) : values (f :: fs) names = values fs names := by
  induction names with
  | nil => rfl
  | cons name names ih =>
    obtain ⟨hne, hnot⟩ := not_or.mp (fun hor => h (List.mem_cons.mpr hor))
    rw [values, values, field_cons_of_ne hne, ih hnot]

theorem field_zip_of_not_mem {name : String} {names : List String} (h : name ∉ names)
    (js : List Json) : (names.zip js).filter (fun f => f.1 = name) = [] := by
  rw [List.filter_eq_nil_iff]
  rintro ⟨n, j⟩ hmem
  have hn := (List.of_mem_zip hmem).1
  simp only [decide_eq_true_eq]
  rintro rfl
  exact h hn

theorem values_zip {names : List String} (hnodup : names.Nodup) {js : List Json}
    (hlen : js.length = names.length) : values (names.zip js) names = some js := by
  induction names generalizing js with
  | nil =>
    cases js with
    | nil => rfl
    | cons j js => cases hlen
  | cons name names ih =>
    cases js with
    | nil => cases hlen
    | cons j js =>
      obtain ⟨hnot, hrest⟩ := List.nodup_cons.mp hnodup
      have hfield : field ((name, j) :: names.zip js) name = some j := by
        unfold field
        rw [List.filter_cons_of_pos (by simp), field_zip_of_not_mem hnot]
      rw [List.zip_cons_cons, values, hfield, Option.bind_some, values_cons_of_not_mem hnot,
        ih hrest (Nat.succ.inj hlen)]
      rfl

/-- A struct: an object, or an array of its values. -/
def struct (fields : Fields α) (hnames : fields.names.Nodup := by decide) : JsonForm α where
  to_json a := .object (fields.names.zip (fields.to_values a))
  from_json
    | .object fs => (values fs fields.names).bind fields.from_values
    | .array js => fields.from_values js
    | _ => none
  from_to a := by
    dsimp only
    rw [values_zip hnames (fields.length_to a), Option.bind_some, fields.from_to]

/-- The fields, with `null` for those of the names that are missing. -/
def fill (names : List String) (fs : List (String × Json)) : List (String × Json) :=
  fs ++ (names.filter fun name => fs.all fun f => f.1 ≠ name).map fun name => (name, .null)

theorem fill_of_present {names : List String} {fs : List (String × Json)}
    (h : ∀ name ∈ names, name ∈ fs.map Prod.fst) : fill names fs = fs := by
  have hnone : (names.filter fun name => fs.all fun f => f.1 ≠ name) = [] := by
    rw [List.filter_eq_nil_iff]
    intro name hname hall
    obtain ⟨f, hf, heq⟩ := List.mem_map.mp (h name hname)
    simpa [heq] using List.all_eq_true.mp hall f hf
  unfold fill
  rw [hnone, List.map_nil, List.append_nil]

/-- A struct of which some fields are options. Those may be missing in an object. -/
def struct_with_options (fields : Fields α) (options : List String)
    (hnames : fields.names.Nodup := by decide)
    (hoptions : ∀ name ∈ options, name ∈ fields.names := by decide) : JsonForm α where
  to_json := (struct fields hnames).to_json
  from_json
    | .object fs => (struct fields hnames).from_json (.object (fill options fs))
    | j => (struct fields hnames).from_json j
  from_to a := by
    have hpresent : ∀ name ∈ options,
        name ∈ (fields.names.zip (fields.to_values a)).map Prod.fst := by
      rw [List.map_fst_zip (Nat.le_of_eq (fields.length_to a).symm)]
      exact hoptions
    show (struct fields hnames).from_json (.object (fill options _)) = some a
    rw [fill_of_present hpresent]
    exact (struct fields hnames).from_to a

/-! ## Enums -/

/-- The variants of an enum, each with its name and perhaps a value. -/
structure Variants (α : Type) where
  names : List String
  tag : α → String
  payload : α → Option Json
  from_variant : String → Option Json → Option α
  tag_mem : ∀ a, tag a ∈ names
  from_to : ∀ a, from_variant (tag a) (payload a) = some a

def Variants.unit (name : String) : Variants Unit where
  names := [name]
  tag _ := name
  payload _ := none
  from_variant t p :=
    if t = name then
      match p with
      | none | some .null => some ()
      | _ => none
    else none
  tag_mem _ := List.mem_singleton_self name
  from_to _ := if_pos rfl

def Variants.newtype (name : String) (f : JsonForm α) : Variants α where
  names := [name]
  tag _ := name
  payload a := some (f.to_json a)
  from_variant t p := if t = name then p.bind f.from_json else none
  tag_mem _ := List.mem_singleton_self name
  from_to a := by rw [if_pos rfl, Option.bind_some, f.from_to]

/-- The variants of two enums together. -/
def Variants.either (v : Variants α) (w : Variants β)
    (h : ∀ t ∈ w.names, t ∉ v.names := by decide) : Variants (α ⊕ β) where
  names := v.names ++ w.names
  tag
    | .inl a => v.tag a
    | .inr b => w.tag b
  payload
    | .inl a => v.payload a
    | .inr b => w.payload b
  from_variant t p :=
    if t ∈ v.names then (v.from_variant t p).map .inl else (w.from_variant t p).map .inr
  tag_mem
    | .inl a => List.mem_append_left _ (v.tag_mem a)
    | .inr b => List.mem_append_right _ (w.tag_mem b)
  from_to
    | .inl a => by
      rw [if_pos (v.tag_mem a), v.from_to]
      rfl
    | .inr b => by
      rw [if_neg (h _ (w.tag_mem b)), w.from_to]
      rfl

/-- An enum: the name of the variant, or an object with the name as its one key. -/
def enum (v : Variants α) : JsonForm α where
  to_json a :=
    match v.payload a with
    | none => .string (v.tag a)
    | some j => .object [(v.tag a, j)]
  from_json
    | .string t => v.from_variant t none
    | .object [(t, j)] => v.from_variant t (some j)
    | _ => none
  from_to a := by
    have hfrom := v.from_to a
    rcases hp : v.payload a with _ | j
    · rw [hp] at hfrom
      exact hfrom
    · rw [hp] at hfrom
      exact hfrom

/-! ## Enums with the tag inside -/

/-- The variants of an enum that have named fields. -/
structure StructVariants (α : Type) where
  names : List String
  /-- The names of all fields. -/
  keys : List String
  tag : α → String
  fields : α → List (String × Json)
  from_variant : String → Json → Option α
  tag_mem : ∀ a, tag a ∈ names
  key_mem : ∀ a, ∀ f ∈ fields a, f.1 ∈ keys
  from_to : ∀ a, from_variant (tag a) (.object (fields a)) = some a

/-- One variant. Without its tag it is read like a struct. -/
def StructVariants.variant (name : String) (fields : Fields α)
    (hnames : fields.names.Nodup := by decide) : StructVariants α where
  names := [name]
  keys := fields.names
  tag _ := name
  fields a := fields.names.zip (fields.to_values a)
  from_variant t j := if t = name then (struct fields hnames).from_json j else none
  tag_mem _ := List.mem_singleton_self name
  key_mem _ _ hf := (List.of_mem_zip hf).1
  from_to a := by
    rw [if_pos rfl]
    exact (struct fields hnames).from_to a

/-- The variants of two enums together. -/
def StructVariants.either (v : StructVariants α) (w : StructVariants β)
    (h : ∀ t ∈ w.names, t ∉ v.names := by decide) : StructVariants (α ⊕ β) where
  names := v.names ++ w.names
  keys := v.keys ++ w.keys
  tag
    | .inl a => v.tag a
    | .inr b => w.tag b
  fields
    | .inl a => v.fields a
    | .inr b => w.fields b
  from_variant t j :=
    if t ∈ v.names then (v.from_variant t j).map .inl else (w.from_variant t j).map .inr
  tag_mem
    | .inl a => List.mem_append_left _ (v.tag_mem a)
    | .inr b => List.mem_append_right _ (w.tag_mem b)
  key_mem
    | .inl a, f, hf => List.mem_append_left _ (v.key_mem a f hf)
    | .inr b, f, hf => List.mem_append_right _ (w.key_mem b f hf)
  from_to
    | .inl a => by
      rw [if_pos (v.tag_mem a), v.from_to]
      rfl
    | .inr b => by
      rw [if_neg (h _ (w.tag_mem b)), w.from_to]
      rfl

/-- The fields with another name. -/
def others (fs : List (String × Json)) (name : String) : List (String × Json) :=
  fs.filter fun f => f.1 ≠ name

theorem others_of_not_key {fs : List (String × Json)} {name : String}
    (h : ∀ f ∈ fs, f.1 ≠ name) : others fs name = fs := by
  unfold others
  rw [List.filter_eq_self]
  intro f hf
  simpa using h f hf

theorem field_tag {fs : List (String × Json)} {name : String} (h : ∀ f ∈ fs, f.1 ≠ name)
    (j : Json) : field ((name, j) :: fs) name = some j := by
  have hnone : fs.filter (fun f => f.1 = name) = [] := by
    rw [List.filter_eq_nil_iff]
    intro f hf
    simpa using h f hf
  unfold field
  rw [List.filter_cons_of_pos (by simp), hnone]

/-- An enum with the name of the variant in a field before its own, or as the first item of
an array. -/
def tagged (name : String) (v : StructVariants α) (hname : name ∉ v.keys := by decide) :
    JsonForm α where
  to_json a := .object ((name, .string (v.tag a)) :: v.fields a)
  from_json
    | .object fs =>
      match field fs name with
      | some (.string t) => v.from_variant t (.object (others fs name))
      | _ => none
    | .array (.string t :: js) => v.from_variant t (.array js)
    | _ => none
  from_to a := by
    have hkey : ∀ f ∈ v.fields a, f.1 ≠ name := by
      rintro f hf rfl
      exact hname (v.key_mem a f hf)
    have hothers : others ((name, .string (v.tag a)) :: v.fields a) name = v.fields a := by
      unfold others
      rw [List.filter_cons_of_neg (by simp)]
      exact others_of_not_key hkey
    dsimp only
    rw [field_tag hkey, hothers]
    exact v.from_to a

end JsonForm
