import Mathlib.Data.List.SplitBy
import Recast.Lower.Dialect

/-! # Names in a text

A text is read as a sequence of tokens: names, and single characters between them. A local is
mentioned by a text if its name is one of the tokens; members and classes can be looked for in the
same way. Where a text is put together from others the tokens are those of its parts, as long as no
two letters meet.
-/
namespace Recast

namespace Text
variable {s t : String}

/-- A character of a name. -/
def isLetter (c : Char) : Bool := c.isAlphanum || c == '_' || 127 < c.toNat

/-- The names in a text and the characters between them. -/
def tokens (t : String) : List String :=
  (t.toList.splitBy fun a b => isLetter a && isLetter b).map String.ofList

/-- No letter stands at the start. -/
def opens (t : String) : Bool := t.toList.head?.any fun c => !isLetter c

/-- No letter stands at the end. -/
def closes (t : String) : Bool := t.toList.getLast?.any fun c => !isLetter c

/-- There is no name, and none can run on into the text or out of it. -/
def separates (t : String) : Bool := opens t && closes t && (tokens t).all opens

theorem opens_append (h : opens s = true) (t : String) : opens (s ++ t) = true := by
  unfold opens at h ⊢
  cases hs : s.toList with
  | nil => simp [hs] at h
  | cons c cs => simpa [hs] using h

theorem closes_append (s : String) (h : closes t = true) : closes (s ++ t) = true := by
  unfold closes at h ⊢
  rw [String.toList_append, List.getLast?_append]
  cases ht : t.toList.getLast? with
  | none => simp [ht] at h
  | some c => simpa [ht] using h

theorem tokens_append (h : ∀ x ∈ s.toList.getLast?, ∀ y ∈ t.toList.head?,
    (isLetter x && isLetter y) = false) : tokens (s ++ t) = tokens s ++ tokens t := by
  rw [tokens, String.toList_append, List.splitBy_append h, List.map_append]
  rfl

theorem tokens_append_of_closes (h : closes s = true) (t : String) :
    tokens (s ++ t) = tokens s ++ tokens t := by
  refine tokens_append fun x hx y _ => ?_
  unfold closes at h
  rw [Option.mem_def.mp hx] at h
  simp_all

theorem tokens_append_of_opens (s : String) (h : opens t = true) :
    tokens (s ++ t) = tokens s ++ tokens t := by
  refine tokens_append fun x _ y hy => ?_
  unfold opens at h
  rw [Option.mem_def.mp hy] at h
  simp_all

/-- A name is read as one token. -/
theorem tokens_of_letters (ht : t ≠ "") (h : t.toList.all isLetter = true) : tokens t = [t] := by
  rw [List.all_eq_true] at h
  have hpairs : t.toList.Pairwise fun a b => (isLetter a && isLetter b) = true :=
    List.pairwise_of_forall_mem_list fun a ha b hb => by rw [h a ha, h b hb]; rfl
  rw [tokens, List.splitBy_of_isChain (by simpa using ht) hpairs.isChain]
  simp

end Text

/-- What a piece of text does with what is looked for. -/
inductive Mark where
  | declares | mentions
  /-- It has the name, but for something else. -/
  | clashes
  deriving DecidableEq, Repr

/-- What is looked for under a name: locals alone, or also members, or also the classes of new
objects. -/
inductive Sought where
  | locals | members | classes
  deriving DecidableEq, Repr

/-- The name of a local, or of something else that is looked for under it. -/
structure SoughtName where
  name : String
  sought : Sought := .locals
  ne_empty : name ≠ ""
  letters : name.toList.all Text.isLetter = true

namespace SoughtName
variable {k : SoughtName} {ms as bs : List Mark} {s t u : String} {ss ts : List String}

/-- The text does not have the name. -/
def Clear (k : SoughtName) (t : String) : Prop := k.name ∉ Text.tokens t

instance (k : SoughtName) (t : String) : Decidable (k.Clear t) :=
  inferInstanceAs (Decidable (k.name ∉ Text.tokens t))

/-- The marks of a text that does not stand for what is looked for. -/
def clashes (k : SoughtName) (t : String) : List Mark := if k.Clear t then [] else [.clashes]

/-- The marks of a name that may be the one that is looked for. -/
def mentioned (k : SoughtName) (name : String) : List Mark :=
  if name = k.name then [.mentions] else k.clashes name

/-- The marks of the name of a member. -/
def accessed (k : SoughtName) (name : String) : List Mark :=
  if k.sought = .members then k.mentioned name else k.clashes name

/-- The marks of the class of a new object. -/
def created (k : SoughtName) (t : String) : List Mark :=
  if k.sought = .classes then .replicate ((Text.tokens t).count k.name) .mentions else k.clashes t

/-- A class can stand in front of the name of a member, so that nothing is said if it is looked
for. -/
def qualified (k : SoughtName) : List Mark := if k.sought = .classes then [.clashes] else []

/-- The marks of a name that an argument declares. -/
def declared (k : SoughtName) (name : String) : List Mark :=
  if name = k.name then [.declares] else k.clashes name

/-- What starts the declaration of a local. -/
def keywords : List String := ["const", "let"]

/-- The tokens fall into parts with the marks, in order. Nothing is said about a text in which
something else has the name. -/
inductive Marked (k : SoughtName) : List Mark → List String → Prop where
  | clear {ts : List String} (h : k.name ∉ ts) : Marked k [] ts
  | mention : Marked k [.mentions] [k.name]
  | declaration {keyword : String} (h : keyword ∈ keywords) :
    Marked k [.declares] [keyword," ",k.name]
  | clash {ms : List Mark} (h : .clashes ∈ ms) (ts : List String) : Marked k ms ts
  | append {as bs : List Mark} {ss ts : List String} (hs : Marked k as ss) (ht : Marked k bs ts) :
    Marked k (as ++ bs) (ss ++ ts)

namespace Marked

/-- Tokens without a clash show nothing exactly if the name is not among them. -/
theorem clear_iff (h : k.Marked ms ts) (hms : .clashes ∉ ms) : k.name ∉ ts ↔ ms = [] := by
  induction h with
  | clear h => exact iff_of_true h rfl
  | mention => exact iff_of_false (by simp) (by simp)
  | declaration => exact iff_of_false (by simp) (by simp)
  | clash h => exact absurd h hms
  | append _ _ hs ht =>
    rw [List.mem_append, not_or] at hms
    rw [List.mem_append, not_or, hs hms.1, ht hms.2, List.append_eq_nil_iff]

/-- A declaration that is shown stands among the tokens, behind what is shown before it. -/
theorem split (h : k.Marked ms ts) (hclash : .clashes ∉ ms) (hms : ms = as ++ .declares :: bs) :
    ∃ front keyword rest, keyword ∈ keywords ∧ ts = front ++ keyword :: " " :: k.name :: rest ∧
      k.Marked as front := by
  induction h generalizing as bs with
  | clear => simp at hms
  | clash h => exact absurd h hclash
  | mention =>
    cases as with
    | nil => simp at hms
    | cons => simp at hms
  | @declaration keyword hk =>
    cases as with
    | nil => exact ⟨[],keyword,[],hk,rfl,.clear List.not_mem_nil⟩
    | cons => simp at hms
  | @append as' bs' ss ts hs ht ihs iht =>
    rw [List.mem_append, not_or] at hclash
    obtain ⟨cs,rfl,hcs⟩ | ⟨cs,rfl,hcs⟩ := List.append_eq_append_iff.mp hms
    · obtain ⟨front,keyword,rest,hk,rfl,hfront⟩ := iht hclash.2 hcs
      exact ⟨ss ++ front,keyword,rest,hk,by rw [List.append_assoc],hs.append hfront⟩
    · cases cs with
      | nil =>
        obtain ⟨front,keyword,rest,hk,rfl,hfront⟩ :=
          iht hclash.2 ((List.nil_append _).trans hcs).symm
        rw [List.append_nil] at hs
        refine ⟨ss ++ front,keyword,rest,hk,by rw [List.append_assoc],?_⟩
        exact List.append_nil as ▸ hs.append hfront
      | cons c cs =>
        obtain ⟨rfl,-⟩ := List.cons.inj hcs
        obtain ⟨front,keyword,rest,hk,rfl,hfront⟩ := ihs hclash.1 rfl
        exact ⟨front,keyword,rest ++ ts,hk,by simp,hfront⟩

end Marked

/-- The text falls into parts with the marks, in order. -/
def Shows (k : SoughtName) (ms : List Mark) (t : String) : Prop := k.Marked ms (Text.tokens t)

/-- The texts fall into parts with the marks, one text after the other. -/
inductive ShowsAll (k : SoughtName) : List Mark → List String → Prop where
  | nil : ShowsAll k [] []
  | cons {as bs : List Mark} {t : String} {ts : List String} (ht : k.Shows as t)
    (hts : ShowsAll k bs ts) : ShowsAll k (as ++ bs) (t :: ts)

def ShowsOpt (k : SoughtName) (ms : List Mark) : Option String → Prop
  | none => ms = []
  | some t => k.Shows ms t

/-- A text that can stand before any other. -/
structure Starts (k : SoughtName) (t : String) : Prop where
  clear : k.Clear t
  closes : Text.closes t = true

/-- A text that can stand behind any other. -/
structure Ends (k : SoughtName) (t : String) : Prop where
  clear : k.Clear t
  opens : Text.opens t = true

/-- A text that can stand between any two others. -/
structure Parts (k : SoughtName) (t : String) : Prop extends k.Starts t, k.Ends t

theorem opens_name (k : SoughtName) : Text.opens k.name = false := by
  unfold Text.opens
  cases h : k.name.toList with
  | nil => rfl
  | cons c cs => simp [List.all_eq_true.mp k.letters c (h ▸ List.mem_cons_self)]

theorem parts_of_separates (h : Text.separates t = true) : k.Parts t := by
  simp only [Text.separates, Bool.and_eq_true] at h
  refine ⟨⟨fun hmem => ?_,h.1.2⟩,h.1.1⟩
  have hopens := List.all_eq_true.mp h.2 _ hmem
  rw [k.opens_name] at hopens
  cases hopens

theorem tokens_name (k : SoughtName) : Text.tokens k.name = [k.name] :=
  Text.tokens_of_letters k.ne_empty k.letters

theorem clear_empty (k : SoughtName) : k.Clear "" := List.not_mem_nil

theorem clear_of_letters (ht : t ≠ "") (h : t.toList.all Text.isLetter = true)
    (hne : k.name ≠ t) : k.Clear t := by
  rw [Clear, Text.tokens_of_letters ht h]
  simpa using hne

theorem Clear.ne (h : k.Clear t) : t ≠ k.name := by
  rintro rfl
  rw [Clear, tokens_name] at h
  exact h (List.mem_singleton.mpr rfl)

theorem Starts.clear_append (hs : k.Starts s) (ht : k.Clear t) : k.Clear (s ++ t) := by
  rw [Clear, Text.tokens_append_of_closes hs.closes, List.mem_append, not_or]
  exact ⟨hs.clear,ht⟩

theorem Clear.append_ends (hs : k.Clear s) (ht : k.Ends t) : k.Clear (s ++ t) := by
  rw [Clear, Text.tokens_append_of_opens _ ht.opens, List.mem_append, not_or]
  exact ⟨hs,ht.clear⟩

/-- A text that ends like one that parts others can stand before any other. -/
theorem Clear.append_parts (hs : k.Clear s) (ht : k.Parts t) : k.Starts (s ++ t) :=
  ⟨hs.append_ends ht.toEnds,Text.closes_append s ht.closes⟩

theorem clashes_of_clear (h : k.Clear t) : k.clashes t = [] := if_pos h

theorem mentioned_of_clear (h : k.Clear t) : k.mentioned t = [] := by
  rw [mentioned, if_neg h.ne, clashes_of_clear h]

theorem accessed_of_clear (h : k.Clear t) : k.accessed t = [] := by
  rw [accessed, mentioned_of_clear h, clashes_of_clear h, ite_self]

namespace Shows

theorem clear (h : k.Clear t) : k.Shows [] t := Marked.clear h

theorem clash (h : .clashes ∈ ms) (t : String) : k.Shows ms t := Marked.clash h _

theorem append_of_closes (hs : k.Shows as s) (ht : k.Shows bs t) (h : Text.closes s = true) :
    k.Shows (as ++ bs) (s ++ t) := by
  rw [Shows, Text.tokens_append_of_closes h]
  exact Marked.append hs ht

theorem append_of_opens (hs : k.Shows as s) (ht : k.Shows bs t) (h : Text.opens t = true) :
    k.Shows (as ++ bs) (s ++ t) := by
  rw [Shows, Text.tokens_append_of_opens _ h]
  exact Marked.append hs ht

theorem after (ht : k.Shows ms t) (hs : k.Starts s) : k.Shows ms (s ++ t) :=
  (Shows.clear hs.clear).append_of_closes ht hs.closes

theorem before (hs : k.Shows ms s) (ht : k.Ends t) : k.Shows ms (s ++ t) :=
  List.append_nil ms ▸ hs.append_of_opens (.clear ht.clear) ht.opens

theorem join (hs : k.Shows as s) (ht : k.Parts t) (hu : k.Shows bs u) :
    k.Shows (as ++ bs) (s ++ t ++ u) :=
  (hs.before ht.toEnds).append_of_closes hu (Text.closes_append s ht.closes)

/-- Where something else has the name nothing is lost if it is noted. -/
theorem clashed (h : k.Shows ms t) (s : String) : k.Shows (k.clashes s ++ ms) t := by
  unfold clashes
  split
  · exact h
  · exact .clash List.mem_cons_self t

theorem clashes_last (h : k.Shows (k.clashes s ++ ms) t) : k.Shows (ms ++ k.clashes s) t := by
  unfold clashes at h ⊢
  split
  · next hs =>
    rw [if_pos hs] at h
    rwa [List.append_nil]
  · exact .clash (List.mem_append_right _ List.mem_cons_self) t

end Shows

/-- There are no marks, or nothing is said because of a clash. -/
def Vague (ms : List Mark) : Prop := ms = [] ∨ .clashes ∈ ms

theorem vague_clashes (k : SoughtName) (t : String) : Vague (k.clashes t) := by
  unfold clashes
  split
  · exact .inl rfl
  · exact .inr List.mem_cons_self

theorem Vague.append (ha : Vague as) (hb : Vague bs) : Vague (as ++ bs) := by
  obtain rfl | ha := ha
  · exact hb
  · exact .inr (List.mem_append_left bs ha)

theorem Vague.shows (h : Vague ms) (ht : k.Clear t) : k.Shows ms t := by
  obtain rfl | h := h
  · exact .clear ht
  · exact .clash h t

theorem shows_clashes (h : k.Clear s → k.Shows [] t) : k.Shows (k.clashes s) t := by
  unfold clashes
  split
  · next hs => exact h hs
  · exact .clash List.mem_cons_self t

theorem shows_mentioned (k : SoughtName) (name : String) : k.Shows (k.mentioned name) name := by
  unfold mentioned
  split
  · next h =>
    rw [h, Shows, tokens_name]
    exact .mention
  · exact shows_clashes .clear

theorem shows_accessed (k : SoughtName) (name : String) : k.Shows (k.accessed name) name := by
  unfold accessed
  split
  · exact k.shows_mentioned name
  · exact shows_clashes .clear

theorem Marked.tokens (k : SoughtName) (ts : List String) :
    k.Marked (.replicate (ts.count k.name) .mentions) ts := by
  induction ts with
  | nil => exact .clear List.not_mem_nil
  | cons t ts ih =>
    by_cases h : t = k.name
    · rw [h, List.count_cons_self, List.replicate_succ]
      exact Marked.append .mention ih
    · have hclear : k.name ∉ [t] := by simpa using Ne.symm h
      rw [List.count_cons_of_ne h]
      exact Marked.append (.clear hclear) ih

theorem shows_created (k : SoughtName) (t : String) : k.Shows (k.created t) t := by
  unfold created
  split
  · exact .tokens k _
  · exact shows_clashes .clear

/-- Unless classes are looked for, what stands in front of the name does not matter. -/
theorem shows_qualified (h : k.sought ≠ .classes → k.Shows ms t) :
    k.Shows (k.qualified ++ ms) t := by
  unfold qualified
  split
  · exact .clash List.mem_cons_self t
  · next hsought => exact h hsought

/-- Where the name of a member counts, it can also be noted as that of something else. -/
theorem Shows.of_accessed (h : k.Shows (k.accessed s) t) : k.Shows (k.clashes s) t :=
  shows_clashes fun hs => accessed_of_clear hs ▸ h

namespace ShowsAll

theorem append (hs : k.ShowsAll as ss) (ht : k.ShowsAll bs ts) :
    k.ShowsAll (as ++ bs) (ss ++ ts) := by
  induction hs with
  | nil => exact ht
  | cons h _ ih =>
    rw [List.append_assoc]
    exact .cons h ih

theorem singleton (h : k.Shows ms t) : k.ShowsAll ms [t] := List.append_nil ms ▸ .cons h .nil

theorem eq_nil (h : k.ShowsAll ms []) : ms = [] := by
  cases h
  rfl

theorem marked (h : k.ShowsAll ms ts) : k.Marked ms (ts.flatMap Text.tokens) := by
  induction h with
  | nil => exact .clear List.not_mem_nil
  | cons ht _ ih => exact .append ht ih

theorem map (h : k.ShowsAll ms ts) {f : String → String}
    (hf : ∀ as t, k.Shows as t → k.Shows as (f t)) : k.ShowsAll ms (ts.map f) := by
  induction h with
  | nil => exact .nil
  | cons ht _ ih => exact .cons (hf _ _ ht) ih

theorem clashes (names : List String) : k.ShowsAll (names.flatMap k.clashes) names := by
  induction names with
  | nil => exact .nil
  | cons name names ih => exact .cons (shows_clashes .clear) ih

theorem intercalate (h : k.ShowsAll ms ts) {sep : String} (hsep : k.Parts sep) :
    k.Shows ms (String.intercalate sep ts) := by
  induction h with
  | nil => exact .clear k.clear_empty
  | @cons as bs t ts ht hts ih =>
    cases hts with
    | nil =>
      rw [List.append_nil, String.intercalate_singleton]
      exact ht
    | cons =>
      rw [String.intercalate_cons_cons]
      exact ht.join hsep ih

end ShowsAll

theorem ShowsOpt.getD {o : Option String} (h : k.ShowsOpt ms o) (ht : k.Clear t) :
    k.Shows ms (o.getD t) := by
  cases o with
  | none =>
    obtain rfl : ms = [] := h
    exact .clear ht
  | some t => exact h

/-- A form with one part, which it shows. -/
def Wraps (k : SoughtName) (f : String → String) : Prop :=
  ∀ ⦃ms t⦄, k.Shows ms t → k.Shows ms (f t)

/-- A form with two parts, which it shows in order. -/
def Joins (k : SoughtName) (f : String → String → String) : Prop :=
  ∀ ⦃as bs s t⦄, k.Shows as s → k.Shows bs t → k.Shows (as ++ bs) (f s t)

theorem wraps_after (hs : k.Starts s) : k.Wraps (s ++ ·) := fun _ _ ht => ht.after hs

theorem wraps_before (ht : k.Ends t) : k.Wraps (· ++ t) := fun _ _ hs => hs.before ht

theorem wraps_around (hs : k.Starts s) (hu : k.Ends u) : k.Wraps (s ++ · ++ u) :=
  fun _ _ ht => (ht.after hs).before hu

theorem joins_around (ht : k.Parts t) : k.Joins (· ++ t ++ ·) := fun _ _ _ _ hs hu => hs.join ht hu

end SoughtName

end Recast
