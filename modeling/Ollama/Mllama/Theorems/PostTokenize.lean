import Mathlib.Data.List.Forall2
import Mathlib.Data.Nat.Pairing
import Mathlib.Algebra.GroupWithZero.Nat
import Ollama.Mllama.PostTokenize

/-!
# The hashes of several images

`PostTokenize` keeps the tokens of the text and attaches to each the images in front of it. The hash of several images
is folded from the hash of the first one and, in place of those of the others, the hashes of the inputs at their
places in the whole list (`readings`). So the hash tells two sequences of images apart exactly when the first images
or these inputs do (`images_identified_iff`), as it does where there is one image, or where the list begins with the
images (`images_identified`).
-/

namespace Ollama.Mllama

variable {δ τ H : Type*} [Zero H] (concat : τ → τ → τ) (fnvHash : H → H → H) (encode : δ → τ) (hash : δ → H)

/-- The hash of the images of a token, with the hashes that are read after that of the first one. -/
def mergedHash : List δ → List H → H
  | [], _ => 0
  | data :: _, read => read.foldl fnvHash (hash data)

/-- The hashes that are read for the images of each token: those of the inputs from the second one of the list on, as
they are when the loop comes to the token. -/
def readings : (before : List H) → List δ → List (Item δ) → List (List H)
  | _, _, [] => []
  | before, images, .image data :: rest => readings (before ++ [hash data]) (images ++ [data]) rest
  | before, images, .text _ :: rest =>
    (before.drop 1).take (images.length - 1) ::
      readings (before ++ [mergedHash fnvHash hash images ((before.drop 1).take (images.length - 1))]) [] rest

namespace PostTokenizeAux

variable {concat fnvHash encode hash} {done rest : List (Input τ H)} {cur : Input τ H}

/-! ## The loops -/

/-- The current input stands behind those that are done. -/
theorem inputAt_length : inputAt (done ++ cur :: rest) done.length = cur := by
  simp [inputAt]

/-- An input that is done stands where it stood. -/
theorem inputAt_done {j : Nat} (hj : j < done.length) : inputAt (done ++ cur :: rest) j = done[j] := by
  rw [inputAt, List.getElem?_append_left hj, List.getElem?_eq_getElem hj, Option.getD_some]

omit [Zero H] in
/-- The current input is replaced. -/
theorem set_length (x : Input τ H) : (done ++ cur :: rest).set done.length x = done ++ x :: rest := by
  simp

/-- The loop over the other images of a token, from the one at an index on. -/
theorem foldl_attachNext (images : List δ) {s m : Nat} (hs : s + m ≤ images.length) (hd : images.length ≤ done.length) :
    (List.range' s m).foldl (attachNext concat fnvHash
      (images.map (fun data => (Item.image data).input encode hash)) done.length)
        (done ++ cur :: rest) =
      done ++ { cur with
        multimodal := ((images.drop s).take m).foldl
          (fun t data => Option.map₂ concat t (some (encode data))) cur.multimodal
        multimodalHash := (((done.map Input.multimodalHash).drop s).take m).foldl fnvHash cur.multimodalHash } ::
          rest := by
  induction m generalizing s cur with
  | zero => simp
  | succ m ih =>
    have himage : inputAt (images.map (fun data => (Item.image data).input encode hash)) s =
      (Item.image images[s]).input encode hash := by
      rw [inputAt, List.getElem?_eq_getElem (by rw [List.length_map]; omega), Option.getD_some, List.getElem_map]
    have hstep : attachNext concat fnvHash (images.map (fun data => (Item.image data).input encode hash))
      done.length (done ++ cur :: rest) s = done ++ { cur with
          multimodal := Option.map₂ concat cur.multimodal (some (encode images[s]))
          multimodalHash := fnvHash cur.multimodalHash done[s].multimodalHash } :: rest := by
      rw [attachNext, inputAt_length, inputAt_done (by omega), himage, set_length]
      rfl
    have hread : (done.map Input.multimodalHash).drop s =
      done[s].multimodalHash :: (done.map Input.multimodalHash).drop (s + 1) := by
      rw [List.drop_eq_getElem_cons (by rw [List.length_map]; omega), List.getElem_map]
    have hdrop : images.drop s = images[s] :: images.drop (s + 1) := List.drop_eq_getElem_cons (by omega)
    rw [List.range'_succ, List.foldl_cons, hstep, ih (by omega), hdrop, hread, List.take_succ_cons,
      List.take_succ_cons, List.foldl_cons, List.foldl_cons]

/-- The tensors of images are joined one after the other. -/
theorem foldl_map₂ (t : τ) (images : List δ) :
    images.foldl (fun t data => Option.map₂ concat t (some (encode data))) (some t) =
    some (images.foldl (fun t data => concat t (encode data)) t) := by
  induction images generalizing t with
  | nil => rfl
  | cons data images ih => exact ih _

/-- A turn at a token. -/
theorem turn_text (token : Nat) (images : List δ) (hd : images.length ≤ done.length) :
    turn concat fnvHash (done ++ (Item.text token).input encode hash :: rest,
      images.map (fun data => (Item.image data).input encode hash)) done.length =
      (done ++ ⟨token, joined concat encode images,
        mergedHash fnvHash hash images (((done.map Input.multimodalHash).drop 1).take (images.length - 1))⟩ :: rest,
          []) := by
  unfold turn
  dsimp only
  rw [inputAt_length, if_pos (by rfl), List.length_map]
  cases images with
  | nil => rfl
  | cons data images =>
    have hfirst : attachFirst (done ++ (Item.text token).input encode hash :: rest)
        ((data :: images).map (fun data => (Item.image data).input encode hash)) done.length =
        done ++ ⟨token, some (encode data), hash data⟩ :: rest := by
      rw [attachFirst, inputAt_length, set_length]
      rfl
    have hall : ((data :: images).drop 1).take ((data :: images).length - 1) = images := by
      rw [List.drop_one, List.tail_cons, List.length_cons, Nat.add_sub_cancel, List.take_length]
    rw [if_pos (by rw [List.length_cons]; omega), hfirst, foldl_attachNext _ (by rw [List.length_cons]; omega) hd,
      hall, foldl_map₂]
    rfl

/-- A turn at an image. -/
theorem turn_image (data : δ) (images : List (Input τ H)) :
    turn concat fnvHash (done ++ (Item.image data).input encode hash :: rest, images) done.length =
      (done ++ ⟨-1, some (encode data), hash data⟩ :: rest, images ++ [(Item.image data).input encode hash]) := by
  unfold turn
  dsimp only
  rw [inputAt_length, if_neg (by simp [Item.input]), set_length]
  rfl

/-- The inputs that are left, from those on which the loop has passed. -/
theorem foldl_turn (done : List (Input τ H)) (items : List (Item δ)) (images : List δ)
    (hd : images.length ≤ done.length) :
    ((List.range' done.length items.length).foldl (turn concat fnvHash)
        (done ++ items.map (Item.input encode hash),
          images.map (fun data => (Item.image data).input encode hash))).1.filter
        (fun input => input.token ≠ -1) =
      done.filter (fun input => input.token ≠ -1) ++
        List.zipWith (fun p read => ⟨p.1, joined concat encode p.2, mergedHash fnvHash hash p.2 read⟩)
          (attached images items)
          (readings fnvHash hash (done.map Input.multimodalHash) images items) := by
  induction items generalizing done images with
  | nil => simp [attached]
  | cons item items ih =>
    rw [List.length_cons, List.range'_succ, List.foldl_cons, List.map_cons]
    cases item with
    | text token =>
      have hdone : ∀ x : Input τ H, done.length + 1 = (done ++ [x]).length := by simp
      rw [turn_text token images hd, List.append_cons, hdone]
      have hrest := ih (done ++ [⟨token, joined concat encode images,
        mergedHash fnvHash hash images (((done.map Input.multimodalHash).drop 1).take (images.length - 1))⟩]) []
        (Nat.zero_le _)
      rw [List.map_nil] at hrest
      rw [hrest, List.filter_append, List.append_assoc, attached, readings, List.zipWith_cons_cons, List.map_append]
      simp
    | image data =>
      have hdone : ∀ x : Input τ H, done.length + 1 = (done ++ [x]).length := by simp
      have hrest := ih (done ++ [⟨-1, some (encode data), hash data⟩]) (images ++ [data]) (by simpa using hd)
      rw [List.map_append, List.map_singleton] at hrest
      rw [turn_image data, List.append_cons, hdone, hrest, attached, readings, List.filter_append, List.map_append]
      simp

/-- The inputs are the tokens with the images before each, and with the hashes of what each reads. -/
theorem postTokenize_eq (items : List (Item δ)) : postTokenize concat fnvHash (items.map (Item.input encode hash)) =
    List.zipWith (fun p read => ⟨p.1, joined concat encode p.2, mergedHash fnvHash hash p.2 read⟩) (attached [] items)
      (readings fnvHash hash [] [] items) := by
  rw [postTokenize, List.length_map, List.range_eq_range']
  exact foldl_turn [] items [] (Nat.le_refl 0)

/-! ## Tokens and images -/

/-- The tokens are those of the items. -/
theorem attached_tokens (images : List δ) (items : List (Item δ)) :
    (attached images items).map Prod.fst = items.filterMap Item.token? := by
  induction items generalizing images with
  | nil => rfl
  | cons item items ih =>
    cases item with
    | text token => exact congrArg (token :: ·) (ih [])
    | image data => exact ih (images ++ [data])

/-- There is one list of hashes for each token, of one hash for each image but the first. -/
theorem readings_spec (before : List H) (images : List δ) (items : List (Item δ)) (h : images.length ≤ before.length) :
    List.Forall₂ (fun p read => read.length = p.2.length - 1) (attached images items)
      (readings fnvHash hash before images items) := by
  induction items generalizing before images with
  | nil => exact .nil
  | cons item items ih =>
    cases item with
    | text token =>
      refine .cons ?_ (ih _ [] (Nat.zero_le _))
      rw [List.length_take, List.length_drop]
      dsimp only
      omega
    | image data =>
      refine ih _ _ ?_
      rw [List.length_append, List.length_append]
      exact Nat.add_le_add_right h 1

/-- What depends on the tokens and not on the hashes. -/
theorem zipWith_left {α β γ : Type*} (g : α → γ) {l : List α} {l' : List β} (h : l.length = l'.length) :
    List.zipWith (fun a _ => g a) l l' = l.map g :=
  List.ext_getElem (by simp [h]) fun i h1 h2 => by simp

/-- Where the list has images in place of those that are read, their hashes are read. -/
theorem readings_of_images {done : List (Item δ)} {before : List H} {images : List δ} {items : List (Item δ)}
    (hdone : List.Forall₂ (fun item h => ∀ data, item = .image data → h = hash data) done before)
    (h : images.length ≤ before.length) {k token : Nat} {images' l : List δ} {read : List H}
    (hk : (attached images items)[k]? = some (token, images'))
    (hread : (readings fnvHash hash before images items)[k]? = some read)
    (hl : ((done ++ items).drop 1).take (images'.length - 1) = l.map .image) : read = l.map hash := by
  induction items generalizing done before images k with
  | nil => nomatch hk
  | cons item items ih =>
    cases item with
    | text token' =>
      cases k with
      | zero =>
        obtain ⟨-, rfl⟩ := Prod.mk.inj (Option.some.inj hk)
        obtain rfl := Option.some.inj hread
        have hlen := hdone.length_eq
        have hwithin : (((done ++ .text token' :: items).drop 1).take (images.length - 1)) =
          (done.drop 1).take (images.length - 1) := by
          rcases done with _ | ⟨item, done⟩
          · obtain rfl : images = [] := List.eq_nil_of_length_eq_zero (by rw [List.length_nil] at hlen; omega)
            rfl
          · rw [List.length_cons] at hlen
            rw [List.cons_append, List.drop_one, List.drop_one, List.tail_cons, List.tail_cons,
              List.take_append_of_le_length (by omega)]
        have hpart := List.forall₂_take (images.length - 1) (List.forall₂_drop 1 hdone)
        rw [← hwithin, hl, List.forall₂_map_left_iff] at hpart
        have heq : List.Forall₂ Eq (l.map hash) ((before.drop 1).take (images.length - 1)) :=
          List.forall₂_map_left_iff.2 (hpart.imp fun data _ hdata => (hdata data rfl).symm)
        rw [List.forall₂_eq_eq_eq] at heq
        exact heq.symm
      | succ k =>
        have htext : ∀ (h : H) (data : δ), Item.text token' = .image data → h = hash data := nofun
        refine ih (List.rel_append hdone (.cons (htext _) .nil)) (Nat.zero_le _) hk hread ?_
        rwa [List.append_assoc]
    | image data =>
      have himage : ∀ data', Item.image data = .image data' → hash data = hash data' :=
        fun data' heq => congrArg hash (Item.image.inj heq)
      refine ih (List.rel_append hdone (.cons himage .nil)) ?_ hk hread ?_
      · rw [List.length_append, List.length_append]
        exact Nat.add_le_add_right h 1
      · rwa [List.append_assoc]

/-- The images of a list that begins with some are in the places from 1 on, but for the first. -/
theorem tail_of_begins {items : List (Item δ)} {images : List δ} (h : images.map Item.image <+: items) :
    (items.drop 1).take (images.length - 1) = images.tail.map .image := by
  obtain ⟨rest, rfl⟩ := h
  cases images with
  | nil => rfl
  | cons data images =>
    rw [List.map_cons, List.cons_append, List.drop_one, List.tail_cons, List.length_cons, Nat.add_sub_cancel,
      List.tail_cons]
    exact List.take_left' (by rw [List.length_map])

/-- Hashes are read for every token. -/
theorem exists_reading (fnvHash : H → H → H) (hash : δ → H) {items : List (Item δ)} {k token : Nat} {images : List δ}
    (hk : (attached [] items)[k]? = some (token, images)) :
    ∃ read, (readings fnvHash hash [] [] items)[k]? = some read := by
  obtain ⟨hlt, -⟩ := List.getElem?_eq_some_iff.1 hk
  have hspec : List.Forall₂ (fun (p : Nat × List δ) read => read.length = p.2.length - 1) (attached [] items)
    (readings fnvHash hash [] [] items) := readings_spec [] [] items (Nat.le_refl _)
  exact ⟨_, List.getElem?_eq_getElem (hspec.length_eq ▸ hlt)⟩

/-! ## Hashes -/

omit [Zero H] in
/-- Hashes of lists of one length are equal exactly if the lists are, where no two pairs share a hash. -/
theorem foldl_eq_iff (hfnv : Function.Injective2 fnvHash) {a a' : H} {l l' : List H} (h : l.length = l'.length) :
    l.foldl fnvHash a = l'.foldl fnvHash a' ↔ a = a' ∧ l = l' := by
  induction l generalizing a a' l' with
  | nil =>
    obtain rfl := List.length_eq_zero_iff.1 h.symm
    simp
  | cons b l ih =>
    cases l' with
    | nil => cases h
    | cons b' l' =>
      rw [List.foldl_cons, List.foldl_cons, ih (Nat.succ.inj h), List.cons.injEq]
      constructor
      · rintro ⟨hab, hl⟩
        exact ⟨(hfnv hab).1, (hfnv hab).2, hl⟩
      · rintro ⟨rfl, rfl, hl⟩
        exact ⟨rfl, hl⟩

/-- The hash of some images is that of the first one with those that are read. -/
theorem mergedHash_eq_iff (hhash : Function.Injective hash) (hfnv : Function.Injective2 fnvHash)
    {images images' : List δ} {read read' : List H} (himages : images.length = images'.length)
    (hread : read.length = images.length - 1) (hread' : read'.length = images'.length - 1) :
    mergedHash fnvHash hash images read = mergedHash fnvHash hash images' read' ↔ images.head? = images'.head? ∧
      read = read' := by
  cases images with
  | nil =>
    obtain rfl := List.length_eq_zero_iff.1 himages.symm
    rw [List.length_eq_zero_iff.1 hread, List.length_eq_zero_iff.1 hread']
    simp
  | cons data images =>
    cases images' with
    | nil => cases himages
    | cons data' images' =>
      rw [mergedHash, mergedHash, foldl_eq_iff hfnv (by rw [hread, hread', himages]), hhash.eq_iff, List.head?_cons,
        List.head?_cons, Option.some.injEq]

/-- The images are the first one and the others. -/
theorem images_eq_iff {images images' : List δ} (h : images.length = images'.length) :
    images = images' ↔ images.head? = images'.head? ∧ images.tail = images'.tail := by
  cases images <;> cases images' <;> simp_all

end PostTokenizeAux

open PostTokenizeAux

/-- `PostTokenize` keeps the tokens of the text in order and attaches the images in front of each. The hashes of two
tokens with equally many images identify these exactly when the first images differ, or the hashes that are read for
the other ones are the same exactly when these are. -/
theorem images_identified_iff (hhash : Function.Injective hash) (hfnv : Function.Injective2 fnvHash)
    (items items' : List (Item δ)) :
    (postTokenize concat fnvHash (items.map (Item.input encode hash))).map Input.token =
      (items.filterMap Item.token?).map Int.ofNat ∧
    (postTokenize concat fnvHash (items.map (Item.input encode hash))).map Input.multimodal =
      (attached [] items).map (fun p => joined concat encode p.2) ∧
    ∀ (k k' token token' : Nat) (images images' : List δ), (attached [] items)[k]? = some (token, images) →
      (attached [] items')[k']? = some (token', images') → images.length = images'.length →
      ((((postTokenize concat fnvHash (items.map (Item.input encode hash)))[k]?.map Input.multimodalHash =
          (postTokenize concat fnvHash (items'.map (Item.input encode hash)))[k']?.map Input.multimodalHash) ↔
            images = images') ↔
        images.head? ≠ images'.head? ∨
          ((readings fnvHash hash [] [] items)[k]? = (readings fnvHash hash [] [] items')[k']? ↔
            images.tail = images'.tail)) := by
  have hspec : ∀ items : List (Item δ), List.Forall₂ (fun p read => read.length = p.2.length - 1) (attached [] items)
      (readings fnvHash hash [] [] items) := fun items => readings_spec [] [] items (Nat.le_refl _)
  have hread : ∀ (items : List (Item δ)) (k token : Nat) (images : List δ), (attached [] items)[k]? =
    some (token, images) →
      ∃ read, (readings fnvHash hash [] [] items)[k]? = some read ∧ read.length = images.length - 1 ∧
        (postTokenize concat fnvHash (items.map (Item.input encode hash)))[k]?.map Input.multimodalHash =
          some (mergedHash fnvHash hash images read) := by
    intro items k token images hk
    obtain ⟨hlt, hget⟩ := List.getElem?_eq_some_iff.1 hk
    have hlt' : k < (readings fnvHash hash [] [] items).length := (hspec items).length_eq ▸ hlt
    have hread := (List.forall₂_iff_get.1 (hspec items)).2 k hlt hlt'
    rw [List.get_eq_getElem, List.get_eq_getElem, hget] at hread
    refine ⟨_, List.getElem?_eq_getElem hlt', hread, ?_⟩
    rw [postTokenize_eq, List.getElem?_zipWith, hk, List.getElem?_eq_getElem hlt']
    rfl
  refine ⟨?_, ?_, ?_⟩
  · rw [postTokenize_eq, List.map_zipWith, zipWith_left _ (hspec items).length_eq, ← attached_tokens [], List.map_map]
    rfl
  · rw [postTokenize_eq, List.map_zipWith, zipWith_left _ (hspec items).length_eq]
  · intro k k' token token' images images' hk hk' himages
    obtain ⟨read, hget, hlen, hout⟩ := hread items k token images hk
    obtain ⟨read', hget', hlen', hout'⟩ := hread items' k' token' images' hk'
    rw [hout, hout', Option.some.injEq, mergedHash_eq_iff hhash hfnv himages hlen hlen', images_eq_iff himages,
      hget, hget', Option.some.injEq]
    tauto

/-- The merged hashes of two tokens of two lists are the same exactly when the images of both are. -/
def Identified (items items' : List (Item δ)) (k k' : Nat) (images images' : List δ) : Prop :=
  (postTokenize concat fnvHash (items.map (Item.input encode hash)))[k]?.map Input.multimodalHash =
    (postTokenize concat fnvHash (items'.map (Item.input encode hash)))[k']?.map Input.multimodalHash ↔ images = images'

/-- **`PostTokenize` keeps the tokens of the text in order and attaches the images in front of each. The hashes of two
tokens with equally many images identify these if there is at most one, if the first images differ, or if both lists
begin with the images of the token. Where the lists have images in the places from 1 to the number of images of the
token, the hashes identify the images exactly if the first images differ, or those in these places are the same
exactly when those of the tokens are, but for the first.** -/
theorem images_identified (hhash : Function.Injective hash) (hfnv : Function.Injective2 fnvHash)
    (items items' : List (Item δ)) :
    (postTokenize concat fnvHash (items.map (Item.input encode hash))).map Input.token =
      (items.filterMap Item.token?).map Int.ofNat ∧
    (postTokenize concat fnvHash (items.map (Item.input encode hash))).map Input.multimodal =
      (attached [] items).map (fun p => joined concat encode p.2) ∧
    ∀ (k k' token token' : Nat) (images images' : List δ), (attached [] items)[k]? = some (token, images) →
      (attached [] items')[k']? = some (token', images') → images.length = images'.length →
      (images.length ≤ 1 ∨ images.head? ≠ images'.head? ∨
        (images.map Item.image <+: items ∧ images'.map Item.image <+: items') →
        Identified concat fnvHash encode hash items items' k k' images images') ∧
      ∀ places places' : List δ, (items.drop 1).take (images.length - 1) = places.map .image →
        (items'.drop 1).take (images'.length - 1) = places'.map .image →
        (Identified concat fnvHash encode hash items items' k k' images images' ↔
          images.head? ≠ images'.head? ∨ (places = places' ↔ images.tail = images'.tail)) := by
  obtain ⟨htokens, hattached, hiff⟩ := images_identified_iff concat fnvHash encode hash hhash hfnv items items'
  refine ⟨htokens, hattached, fun k k' token token' images images' hk hk' hlen => ?_⟩
  have hplaces : ∀ places places' : List δ, (items.drop 1).take (images.length - 1) = places.map .image →
      (items'.drop 1).take (images'.length - 1) = places'.map .image →
      (Identified concat fnvHash encode hash items items' k k' images images' ↔
        images.head? ≠ images'.head? ∨ (places = places' ↔ images.tail = images'.tail)) := by
    intro places places' hl hl'
    obtain ⟨read, hread⟩ := exists_reading fnvHash hash hk
    obtain ⟨read', hread'⟩ := exists_reading fnvHash hash hk'
    have hstart : List.Forall₂ (fun item h => ∀ data, item = .image data → h = hash data) ([] : List (Item δ)) [] :=
      .nil
    have hnone : ([] : List δ).length ≤ ([] : List H).length := Nat.le_refl 0
    have heq : read = places.map hash := readings_of_images hstart hnone hk hread hl
    have heq' : read' = places'.map hash := readings_of_images hstart hnone hk' hread' hl'
    have hsame : (readings fnvHash hash [] [] items)[k]? = (readings fnvHash hash [] [] items')[k']? ↔
      places = places' := by
      rw [hread, hread', Option.some.injEq, heq, heq', (List.map_injective_iff.2 hhash).eq_iff]
    exact (hiff k k' token token' images images' hk hk' hlen).trans (or_congr_right (iff_congr hsame Iff.rfl))
  refine ⟨?_, hplaces⟩
  rintro (hone | hhead | ⟨hbegins, hbegins'⟩)
  · -- no hash is read but that of the first image
    have hnone : ∀ l : List (Item δ), l.take (images.length - 1) = ([] : List δ).map .image := by
      intro l
      rw [Nat.sub_eq_zero_of_le hone, List.take_zero, List.map_nil]
    have htail : ∀ l : List δ, l.length = images.length → l.tail = [] := by
      intro l hl
      exact List.eq_nil_of_length_eq_zero (by rw [List.length_tail]; omega)
    exact (hplaces [] [] (hnone _) (hlen ▸ hnone _)).2
      (.inr (iff_of_true rfl ((htail _ rfl).trans (htail _ hlen.symm).symm)))
  · exact (hiff k k' token token' images images' hk hk' hlen).2 (.inl hhead)
  · exact (hplaces _ _ (tail_of_begins hbegins) (tail_of_begins hbegins')).2 (.inr Iff.rfl)

/-! ## Two images -/

/-- A hash of numbers. -/
def numberHash (data : Nat) : Nat := data + 1

/-- No two numbers share a hash. -/
theorem numberHash_injective : Function.Injective numberHash := Nat.succ_injective

/-- No two pairs share a hash. -/
theorem pair_injective : Function.Injective2 Nat.pair := by
  intro a a' b b' h
  exact Nat.pair_eq_pair.1 h

/-- Two images at the beginning of a text. -/
def startImages (data data' : Nat) : List (Item Nat) := [.image data, .image data', .text 5]

/-- Two images behind a token. -/
def laterImages (data data' : Nat) : List (Item Nat) := [.text 4, .image data, .image data', .text 5]

/-- At the start of the inputs images are identified, and later they are not. -/
theorem images_identified_start :
    (postTokenize (· ++ ·) Nat.pair ((startImages 1 2).map (Item.input (fun data => [data]) numberHash))).map
      Input.multimodal = [some [1, 2]] ∧
    Identified (· ++ ·) Nat.pair (fun data => [data]) numberHash (startImages 1 2) (startImages 1 3) 0 0 [1, 2] [1, 3] ∧
    ¬Identified (· ++ ·) Nat.pair (fun data => [data]) numberHash (laterImages 1 2) (laterImages 1 3) 1 1 [1,
      2] [1, 3] := by
  obtain ⟨_, himages, hhash⟩ :=
    images_identified (· ++ ·) Nat.pair (fun data => [data]) numberHash numberHash_injective pair_injective
    (startImages 1 2) (startImages 1 3)
  obtain ⟨_, _, hhash'⟩ :=
    images_identified (· ++ ·) Nat.pair (fun data => [data]) numberHash numberHash_injective pair_injective
    (laterImages 1 2) (laterImages 1 3)
  have hplaces := (hhash' 1 1 5 5 [1, 2] [1, 3] rfl rfl rfl).2 [1] [1] rfl rfl
  refine ⟨himages.trans (by decide), (hhash 0 0 5 5 [1, 2] [1, 3] rfl rfl rfl).1 (.inr (.inr ?_)), fun h => ?_⟩
  · exact ⟨⟨[.text 5], rfl⟩, ⟨[.text 5], rfl⟩⟩
  · exact absurd (hplaces.1 h) (by decide)

/-- Behind a token, the hash of the first image is read again for the second one. -/
theorem images_confused : ¬∀ (items items' : List (Item Nat)) (k k' token token' : Nat) (images images' : List Nat),
    (attached [] items)[k]? = some (token, images) → (attached [] items')[k']? = some (token', images') →
      images.length = images'.length →
      ((postTokenize (· ++ ·) Nat.pair (items.map (Item.input (fun data => [data]) numberHash)))[k]?.map
        Input.multimodalHash =
        (postTokenize (· ++ ·) Nat.pair (items'.map (Item.input (fun data => [data]) numberHash)))[k']?.map
          Input.multimodalHash ↔ images = images') := by
  intro h
  have hsame := (h (laterImages 1 2) (laterImages 1 3) 1 1 5 5 [1, 2] [1, 3] rfl rfl rfl).1 (by decide)
  exact absurd hsame (by decide)

end Ollama.Mllama
