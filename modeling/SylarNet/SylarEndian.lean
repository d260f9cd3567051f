import SylarNet.HostWords

/-!
# Network byte order

`byteswapOnLittleEndian`, which makes a word of the host one of the network and back.
-/
namespace SylarEndian

open HostWords

def byteswapOnLittleEndian : ByteOrder → ℕ → ℕ → ℕ
  | .little, width, v => byteswap width v
  | .big, _, v => v

/-- On either host the swapped word is stored with its most significant byte first. -/
theorem store_byteswapOnLittleEndian (order : ByteOrder) (width v : ℕ) :
    store order width (byteswapOnLittleEndian order width v) = toBig width v := by
  cases order with
  | little => exact toLittle_byteswap width v
  | big => rfl

theorem byteswapOnLittleEndian_load (order : ByteOrder) (bytes : List UInt8) :
    byteswapOnLittleEndian order bytes.length (load order bytes) = ofLittle bytes.reverse := by
  cases order with
  | little => exact byteswap_ofLittle bytes
  | big => rfl

theorem byteswapOnLittleEndian_lt (order : ByteOrder) {width v : ℕ} (h : v < 256 ^ width) :
    byteswapOnLittleEndian order width v < 256 ^ width := by
  cases order with
  | little =>
    have hlt := ofLittle_lt (toBig width v)
    rwa [length_toBig] at hlt
  | big => exact h

/-- The length that the receiver computes from a word the sender stored. -/
theorem load_toBig (order : ByteOrder) {width v : ℕ} (h : v < 256 ^ width) :
    byteswapOnLittleEndian order width (load order (toBig width v)) = v := by
  have hload := byteswapOnLittleEndian_load order (toBig width v)
  rw [length_toBig, ofLittle_reverse_toBig h] at hload
  exact hload

end SylarEndian
